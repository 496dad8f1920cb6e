import Insomnilog.Backend.Invariant

/-! The steps of the threads keep the invariant of the backend. -/
namespace Insomnilog.Backend
open ByteStore Wire Queue Framing Frontend

variable {t : Target} {cfg : Config t} {k i : ℕ} {s s' : State t} {th th' : Thread t}
  {w : Worker t} {consumers : List ℕ}

/-- What becomes of thread `i` in a step that takes nothing from it. -/
structure Carries (cfg : Config t) (k : ℕ) (consumers : List ℕ) (i : ℕ) (th th' : Thread t) :
    Prop where
  inv : ThreadInv cfg k i th'
  keeps : Keeps th th'
  registered : th'.registered = true → th.registered = true ∨ i ∈ consumers

/-- The threads of `s` are carried over to `threads`. -/
def CarriesAll (cfg : Config t) (k : ℕ) (consumers : List ℕ) (s : State t)
    (threads : List (Thread t)) : Prop :=
  threads.length = s.threads.length ∧ ∀ (i : ℕ) (th : Thread t), s.threads[i]? = some th →
    ∃ th' : Thread t, threads[i]? = some th' ∧ Carries cfg k consumers i th th'

theorem sum_map_set {α : Type*} {f : α → ℕ} {l : List α} {a : α} (h : l[i]? = some a) (a' : α) :
    ((l.set i a').map f).sum + f a = (l.map f).sum + f a' := by
  induction l generalizing i with
  | nil => simp at h
  | cons b l ih =>
    cases i with
    | zero =>
      obtain rfl := Option.some.inj h
      simp only [List.set_cons_zero, List.map_cons, List.sum_cons]
      omega
    | succ i =>
      have := ih h
      simp only [List.set_cons_succ, List.map_cons, List.sum_cons]
      omega

/-- When one thread changes, every thread is related to what it becomes. -/
theorem set_related {R : ℕ → Thread t → Thread t → Prop} {l : List (Thread t)}
    (hi : l[i]? = some th) (hth : R i th th')
    (hrefl : ∀ (j : ℕ) (u : Thread t), l[j]? = some u → R j u u) {j : ℕ} {u : Thread t}
    (hj : l[j]? = some u) : ∃ u' : Thread t, (l.set i th')[j]? = some u' ∧ R j u u' := by
  by_cases hji : j = i
  · subst hji
    obtain rfl := Option.some.inj (hi.symm.trans hj)
    exact ⟨th', List.getElem?_set_self (List.getElem?_eq_some_iff.mp hi).choose, hth⟩
  · exact ⟨u, (List.getElem?_set_ne (Ne.symm hji)).trans hj, hrefl j u hj⟩

namespace BackendInv

theorem carries_refl (h : BackendInv cfg k s) : CarriesAll cfg k consumers s s.threads :=
  ⟨rfl, fun i th hi => ⟨th, hi, (h.threads i th hi).inv, .refl th, .inl⟩⟩

theorem carries_set (h : BackendInv cfg k s) (hi : s.threads[i]? = some th)
    (hc : Carries cfg k consumers i th th') :
    CarriesAll cfg k consumers s (s.threads.set i th') := by
  refine ⟨List.length_set, fun j u hj => ?_⟩
  apply set_related hi hc _ hj
  intro j u hj
  exact ⟨(h.threads j u hj).inv, .refl u, .inl⟩

theorem dropped_set (h : BackendInv cfg k s) (hi : s.threads[i]? = some th) {n : ℕ}
    (hr : th'.rejected = th.rejected + n) :
    s.droppedRecords + n = ((s.threads.set i th').map Thread.rejected).sum := by
  have hsum := sum_map_set (f := Thread.rejected) hi th'
  have hdropped := h.dropped
  unfold State.rejected at hdropped
  omega

/-- A step that takes nothing and delivers nothing keeps the invariant when it keeps the
threads, the registry and what the worker relies on. -/
theorem carry (h : BackendInv cfg k s) {threads : List (Thread t)} {level : t.Ptr → LogLevel}
    {droppedRecords : ℕ} (hthreads : CarriesAll cfg k consumers s threads)
    (hconsumers : ∀ i ∈ s.consumers, i ∈ consumers ∨ s.At i Thread.Finished)
    (hrange : s.InRange consumers) (hdropped : droppedRecords = (threads.map Thread.rejected).sum)
    (htoCome : ∀ i, w.toCome cfg i = s.worker.toCome cfg i)
    (hw : Later s { s with threads, consumers, level, droppedRecords, worker := w } →
      WorkerOk cfg { s with threads, consumers, level, droppedRecords, worker := w } w) :
    BackendInv cfg k { s with threads, consumers, level, droppedRecords, worker := w } := by
  obtain ⟨hlength, hthreads⟩ := hthreads
  have hl : Later s { s with threads, consumers, level, droppedRecords, worker := w } := by
    refine ⟨fun i th hi => ?_, fun m hm => hm⟩
    obtain ⟨th', hi', hc⟩ := hthreads i th hi
    exact ⟨th', hi', hc.keeps⟩
  refine
    { rounded := h.rounded
      threads := fun i th' hi' => ?_
      consumers := fun i hi => (hrange i hi).trans_eq hlength.symm
      worker := hw hl
      flag := h.flag
      mark := fun m i n hm hn => hl.at_mono
        (fun th th' hk hle => hle.trans hk.committed.length_le) (h.mark m i n hm hn)
      fanned := fun p hp => (h.fanned p hp).trans_eq hlength.symm
      calls := fun c hc => (h.calls c hc).trans_eq hlength.symm
      writeErrors := h.writeErrors
      flushErrors := h.flushErrors
      panicCount := h.panicCount
      dropped := hdropped }
  have hlt : i < s.threads.length := hlength ▸ (List.getElem?_eq_some_iff.mp hi').choose
  obtain ⟨th, hi⟩ : ∃ th, s.threads[i]? = some th := ⟨_, List.getElem?_eq_getElem hlt⟩
  obtain ⟨u, hu, hc⟩ := hthreads i th hi
  obtain rfl := Option.some.inj (hi'.symm.trans hu)
  have hf := h.threads i th hi
  refine ⟨hc.inv, ?_, ?_, fun hr => ?_⟩
  · rw [hc.keeps.results]
    exact hf.fanned
  · rw [hc.keeps.results]
    exact (congrArg _ (htoCome i)).trans hf.calls
  · rcases hc.registered hr with hr | hmem
    · rcases hf.registered hr with hmem | hfin
      · exact (hconsumers i hmem).imp_right fun hfin => hc.keeps.finished (hfin.get hi)
      · exact .inr (hc.keeps.finished hfin)
    · exact .inl hmem

/-- A step in which only the worker moves on. -/
theorem moves (h : BackendInv cfg k s) (htoCome : ∀ i, w.toCome cfg i = s.worker.toCome cfg i)
    (hw : WorkerOk cfg s w) : BackendInv cfg k { s with worker := w } :=
  h.carry h.carries_refl (fun _ hi => .inl hi) h.consumers h.dropped htoCome fun hl =>
    hw.mono hl fun _ => rfl

/-- A step in which the worker moves on after a call of `available`. -/
theorem touches (h : BackendInv cfg k s) (hi : s.threads[i]? = some th)
    (hinv : ThreadInv cfg k i th') (hk : Keeps th th') (hreg : th'.registered = th.registered)
    (hrej : th'.rejected = th.rejected)
    (htoCome : ∀ j, w.toCome cfg j = s.worker.toCome cfg j)
    (hw : Later s { s.setThread i th' with worker := w } →
      WorkerOk cfg { s.setThread i th' with worker := w } w) :
    BackendInv cfg k { s.setThread i th' with worker := w } := by
  exact h.carry (h.carries_set hi ⟨hinv, hk, fun hr => .inl (hreg ▸ hr)⟩)
    (fun _ hi => .inl hi) h.consumers (h.dropped_set hi (n := 0) hrej) htoCome hw

theorem act (h : BackendInv cfg k s) (hi : s.threads[i]? = some th) {a : Action t}
    (ha : th.act cfg s.level a = some th') :
    BackendInv cfg k { s.setThread i th' with
      droppedRecords := s.droppedRecords + a.dropped } := by
  have hinv := (h.threads i th hi).inv
  exact h.carry
    (h.carries_set hi ⟨hinv.act ha, hinv.keeps ha, fun hr => .inl (Thread.registered_act ha ▸ hr)⟩)
    (fun _ hi => .inl hi) h.consumers (h.dropped_set hi (Thread.rejected_act ha)) (fun _ => rfl)
    fun hl => h.worker.mono hl fun _ => rfl

theorem register (h : BackendInv cfg k s) (hi : s.threads[i]? = some th)
    (hr : s.register i th = some s') : BackendInv cfg k s' := by
  unfold State.register at hr
  split at hr
  · cases hr
  next hguard =>
    cases hr
    have hinv := (h.threads i th hi).inv
    have hlt := (List.getElem?_eq_some_iff.mp hi).choose
    refine h.carry (h.carries_set hi ⟨{ hinv with unregistered := fun hf => by cases hf },
      ⟨rfl, List.prefix_rfl, List.prefix_rfl, fun hd => ⟨hd, rfl⟩, id⟩,
      fun _ => .inr (List.mem_append_right _ List.mem_cons_self)⟩)
      (fun _ hi => .inl (List.mem_append_left _ hi)) (fun j hj => ?_)
      (h.dropped_set hi (n := 0) rfl)
      (fun _ => rfl) fun hl => h.worker.mono hl fun hlock => by simp [hlock] at hguard
    rcases List.mem_append.mp hj with hj | hj
    · exact h.consumers j hj
    · rw [List.mem_singleton.mp hj]
      exact hlt

theorem setLevel (h : BackendInv cfg k s) (level : t.Ptr → LogLevel) :
    BackendInv cfg k { s with level } :=
  h.carry h.carries_refl (fun _ hi => .inl hi) h.consumers h.dropped (fun _ => rfl) fun hl =>
    h.worker.mono hl fun _ => rfl

theorem spawn (h : BackendInv cfg k s) : BackendInv cfg k (s.spawn cfg) := by
  have hl : Later s (s.spawn cfg) := by
    refine ⟨fun i th hi => ⟨th, ?_, .refl th⟩, fun m hm => hm⟩
    exact (List.getElem?_append_left (List.getElem?_eq_some_iff.mp hi).choose).trans hi
  have hlength : (s.spawn cfg).threads.length = s.threads.length + 1 := by
    simp [State.spawn]
  refine
    { rounded := h.rounded
      threads := fun i th hi => ?_
      consumers := hl.inRange h.consumers
      worker := h.worker.mono hl fun _ => rfl
      flag := h.flag
      mark := fun m i n hm hn => hl.at_mono
        (fun th th' hk hle => hle.trans hk.committed.length_le) (h.mark m i n hm hn)
      fanned := fun p hp => (h.fanned p hp).trans (by omega)
      calls := fun c hc => (h.calls c hc).trans (by omega)
      writeErrors := h.writeErrors
      flushErrors := h.flushErrors
      panicCount := h.panicCount
      dropped := by simpa [State.rejected, State.spawn] using h.dropped }
  by_cases hlt : i < s.threads.length
  · have hi' : s.threads[i]? = some th := (List.getElem?_append_left hlt).symm.trans hi
    have hf := h.threads i th hi'
    exact ⟨hf.inv, hf.fanned, hf.calls, hf.registered⟩
  · have hle := (List.getElem?_eq_some_iff.mp hi).choose
    obtain rfl : i = s.threads.length := by omega
    obtain rfl := Option.some.inj (List.getElem?_concat_length.symm.trans hi)
    obtain ⟨k', hk', hinv⟩ := ThreadInv.new cfg s.threads.length
    obtain rfl : k' = k := Nat.pow_right_injective le_rfl (hk'.symm.trans h.rounded)
    refine ⟨hinv, ?_, ?_, fun hr => by cases hr⟩
    · refine List.filter_eq_nil_iff.mpr fun p hp => ?_
      have := h.fanned p hp
      simp; omega
    · refine List.append_eq_nil_iff.mpr
        ⟨List.filter_eq_nil_iff.mpr fun c hc => ?_, h.worker.toCome_eq_nil le_rfl⟩
      have := h.calls c hc
      simp; omega

theorem shutdown (h : BackendInv cfg k s) : BackendInv cfg k s.shutdown := by
  have hl : Later s s.shutdown :=
    ⟨fun i th hi => ⟨th, hi, .refl th⟩, fun m hm => by simp [State.shutdown, hm]⟩
  refine
    { rounded := h.rounded
      threads := fun i th hi => ?_
      consumers := h.consumers
      worker := h.worker.mono hl fun _ => rfl
      flag := by cases hm : s.mark <;> simp [State.shutdown, hm]
      mark := fun m i n hm hn => ?_
      fanned := h.fanned
      calls := h.calls
      writeErrors := h.writeErrors
      flushErrors := h.flushErrors
      panicCount := h.panicCount
      dropped := h.dropped }
  · have hf := h.threads i th hi
    exact ⟨hf.inv, hf.fanned, hf.calls, hf.registered⟩
  · cases hmark : s.mark with
    | some m' =>
      obtain rfl : m' = m := by simpa [State.shutdown, hmark] using hm
      exact h.mark m' i n hmark hn
    | none =>
      obtain rfl : s.threads.map (fun th => th.committed.length) = m := by
        simpa [State.shutdown, hmark] using hm
      rw [List.getElem?_map] at hn
      obtain ⟨th, hi, rfl⟩ := Option.map_eq_some_iff.mp hn
      exact ⟨th, hi, le_rfl⟩

end BackendInv
end Insomnilog.Backend

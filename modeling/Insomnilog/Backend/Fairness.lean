import Insomnilog.Backend.Drain
import Insomnilog.Backend.Join
import Insomnilog.Backend.Pass

/-! How long a record waits in its queue, and how often it is overtaken, while all threads go on
as they like. -/
namespace Insomnilog.Backend
open Wire Queue Framing Frontend StepSystem

variable {t : Target} {cfg : Config t} {level : t.Ptr → LogLevel} {i j k : ℕ} {s s' : State t}
  {e : Event t} {es : List (Event t)} {S n : ℕ}

/-- The number of records taken from thread `i`. -/
def State.taken (s : State t) (i : ℕ) : ℕ := (s.threads[i]?).elim 0 fun th => th.results.length

/-- The records of thread `i` that the pass can still take. -/
def Worker.share (i : ℕ) : Worker t → ℕ
  | .visit _ rest => MAX_BATCH_PER_CONSUMER * rest.count i
  | .poll _ j budget rest => (if j = i then budget else 0) + MAX_BATCH_PER_CONSUMER * rest.count i
  | .peek _ j budget _ rest =>
      (if j = i then budget + 1 else 0) + MAX_BATCH_PER_CONSUMER * rest.count i
  | .read _ j budget _ rest =>
      (if j = i then budget + 1 else 0) + MAX_BATCH_PER_CONSUMER * rest.count i
  | .advance _ j budget _ _ rest =>
      (if j = i then budget + 1 else 0) + MAX_BATCH_PER_CONSUMER * rest.count i
  | .fanout _ budget rest f _ =>
      (if f.thread = i then budget else 0) + MAX_BATCH_PER_CONSUMER * rest.count i
  | _ => 0

/-- It is left to the next pass to visit thread `i`, if there is one. -/
def Worker.defers (i : ℕ) (w : Worker t) : Bool := !w.ended && w.share i = 0

/-- A pass starts with the snapshot. -/
def Worker.snapshots : Worker t → Bool
  | .snapshot _ => true
  | _ => false

section Taken

theorem taken_of_getElem? {th : Thread t} (hi : s.threads[i]? = some th) :
    s.taken i = th.results.length := by
  rw [State.taken, hi]
  rfl

theorem BackendInv.taken_work {m : ℕ} (h : BackendInv cfg m s) (hw : s.work cfg = some s') (i : ℕ) :
    s'.taken i + (s'.unread i).length = s.taken i + (s.unread i).length := by
  have hframe := work_frame hw
  have h' := h.work hw
  have hsum {m : ℕ} {u : State t} {th : Thread t} (hu : BackendInv cfg m u)
      (hi : u.threads[i]? = some th) : u.taken i + (u.unread i).length = th.committed.length := by
    have hle := (hu.threads i th hi).inv.taken_le
    rw [taken_of_getElem? hi, State.unread_of_getElem? hi, Thread.unread, List.length_drop,
      List.length_zipIdx]
    omega
  cases hi : s.threads[i]? with
  | none =>
    have hge : s.threads.length ≤ i := List.getElem?_eq_none_iff.mp hi
    have hi' : s'.threads[i]? = none := List.getElem?_eq_none (hframe.length ▸ hge)
    rw [State.taken, State.taken, hi, hi', State.unread_of_not_lt hge,
      State.unread_of_not_lt (hframe.length ▸ hge)]
  | some th =>
    obtain ⟨th', hi', hcommitted, -⟩ := hframe.threads i th hi
    rw [hsum h hi, hsum h' hi', hcommitted]

theorem taken_aside {m : ℕ} (h : BackendInv cfg m s) {ev : Event t}
    (he : Backend.step cfg s ev = some s') (hne : ev ≠ .work) (i : ℕ) :
    s'.taken i = s.taken i := by
  have hset {j : ℕ} {th : Thread t} (th' : Thread t) (hj : s.threads[j]? = some th)
      (hth : th'.results = th.results) (hthreads : s'.threads = s.threads.set j th') :
      s'.taken i = s.taken i := by
    rw [State.taken, State.taken, hthreads]
    by_cases hij : i = j
    · subst hij
      rw [List.getElem?_set_self (List.getElem?_eq_some_iff.mp hj).choose, hj]
      exact congrArg List.length hth
    · rw [List.getElem?_set_ne (Ne.symm hij)]
  cases ev with
  | spawn =>
    cases he
    show ((s.threads ++ [_])[i]?).elim 0 _ = (s.threads[i]?).elim 0 _
    rw [List.getElem?_append]
    split
    · rfl
    next hge =>
      rw [List.getElem?_eq_none (Nat.not_lt.mp hge)]
      rcases i - s.threads.length with - | n <;> rfl
  | register j =>
    obtain ⟨th, hj, hr⟩ := Option.bind_eq_some_iff.mp he
    unfold State.register at hr
    split at hr
    · cases hr
    · cases hr
      exact hset { th with registered := true } hj rfl rfl
  | act j a =>
    obtain ⟨th, hj, hr⟩ := Option.bind_eq_some_iff.mp he
    obtain ⟨th', ha, rfl⟩ := Option.map_eq_some_iff.mp hr
    exact hset th' hj ((h.threads j th hj).inv.keeps ha).results rfl
  | setLevel logger lvl =>
    cases he
    rfl
  | shutdown =>
    cases he
    rfl
  | work => exact absurd rfl hne


end Taken

section Share

/-- Within a pass, what is left to take from thread `i` only falls, and stays the same as long as
its queue is not found empty. -/
theorem Moves.share {w w' : Worker t} (h : Moves cfg s w w') (hs : w.snapshots = false)
    (hended : w'.ended = false) : w'.share i ≤ w.share i ∧
      (s.unread i ≠ [] → w'.share i = w.share i) := by
  cases h with
  | snapshot => cases hs
  | @visit down j rest =>
    simp only [Worker.share, List.count_cons, beq_iff_eq, Nat.mul_add]
    split_ifs <;> omega
  | full => simp [Worker.share]
  | @empty down j budget rest hj =>
    refine ⟨Nat.le_add_left _ _, fun hi => ?_⟩
    have hne : j ≠ i := fun hji => hi (hji ▸ hj)
    simp [Worker.share, hne]
  | stop => cases hended
  | unwind => cases hended
  | drained => cases hended
  | _ => exact ⟨le_rfl, fun _ => rfl⟩

/-- A pass takes no more than a batch from a thread. -/
theorem Orderly.share_le (h : Orderly s) (i : ℕ) : s.worker.share i ≤ MAX_BATCH_PER_CONSUMER := by
  have hnodup := h.list.nodup h.nodup
  have hbudget := h.budget
  have hvisit {j b : ℕ} {rest : List ℕ} (hl : (j :: rest).Nodup)
      (hb : b ≤ MAX_BATCH_PER_CONSUMER) :
      (if j = i then b else 0) + MAX_BATCH_PER_CONSUMER * rest.count i ≤
        MAX_BATCH_PER_CONSUMER := by
    have hcount := List.nodup_iff_count_le_one.mp hl i
    rw [List.count_cons] at hcount
    by_cases hji : j = i
    · rw [hji, beq_self_eq_true, if_pos rfl] at hcount
      have hzero : rest.count i = 0 := by omega
      rw [if_pos hji, hzero]
      exact hb
    · rw [if_neg hji, Nat.zero_add]
      exact Nat.mul_le_mul_left _ (by omega : rest.count i ≤ 1)
  cases hw : s.worker with
  | visit down rest =>
    rw [hw] at hnodup
    have hcount := List.nodup_iff_count_le_one.mp hnodup i
    exact Nat.mul_le_mul_left _ hcount
  | poll down j budget rest =>
    rw [hw] at hnodup hbudget
    exact hvisit hnodup hbudget
  | peek down j budget avail rest =>
    rw [hw] at hnodup hbudget
    exact hvisit hnodup hbudget
  | read down j budget totalLen rest =>
    rw [hw] at hnodup hbudget
    exact hvisit hnodup hbudget
  | advance down j budget totalLen result rest =>
    rw [hw] at hnodup hbudget
    exact hvisit hnodup hbudget
  | fanout down budget rest f sinks =>
    rw [hw] at hnodup hbudget
    exact hvisit hnodup ((Nat.le_succ _).trans hbudget)
  | _ => exact Nat.zero_le _

theorem Moves.not_ended {w w' : Worker t} (h : Moves cfg s w w') : w.ended = false := by
  cases h <;> rfl

theorem Worker.share_of_ended {w : Worker t} (h : w.ended = true) (i : ℕ) : w.share i = 0 := by
  cases w with
  | done | unwound => rfl
  | _ => cases h

theorem Worker.defers_of_ended {w : Worker t} (h : w.ended = true) (i : ℕ) :
    w.defers i = false := by
  rw [defers, h]
  rfl

end Share

section Overtaking

/-- The records of thread `k` that can still be taken before the oldest one of thread `i`. -/
def State.overtakers (s : State t) (i k : ℕ) : ℕ :=
  s.worker.share k + if s.worker.defers i then MAX_BATCH_PER_CONSUMER else 0

/-- Record `j` of thread `i` has been committed, and the ones before it have been taken. -/
def State.Reached (s : State t) (i j : ℕ) : Prop :=
  j ≤ s.taken i ∧ s.At i fun th => j < th.committed.length

theorem State.Reached.unread (hj : s.Reached i j) (hle : s.taken i ≤ j) : s.unread i ≠ [] := by
  obtain ⟨-, th, hi, hlt⟩ := hj
  rw [taken_of_getElem? hi] at hle
  rw [State.unread_of_getElem? hi, ne_eq, Thread.unread_eq_nil_iff]
  omega

theorem BackendInv.taken_le {m : ℕ} (h : BackendInv cfg m s) {ev : Event t}
    (he : Backend.step cfg s ev = some s') (i : ℕ) : s.taken i ≤ s'.taken i := by
  by_cases hwork : ev = .work
  · subst hwork
    have hsum := h.taken_work he i
    have hle := ((h.turn he).unread_suffix i).length_le
    omega
  · exact (taken_aside h he hwork i).ge

theorem State.Reached.step (hs : (system cfg level).Reachable s) (hj : s.Reached i j)
    {ev : Event t} (he : Backend.step cfg s ev = some s') : s'.Reached i j := by
  obtain ⟨m, h⟩ := backend_invariant hs
  obtain ⟨hle, th, hi, hlt⟩ := hj
  obtain ⟨th', hi', hp⟩ := (step_grows hs he).committed i th hi
  exact ⟨hle.trans (h.taken_le he i), th', hi', hlt.trans_le hp.length_le⟩

/-- What a step takes of a thread is missing in its share of the pass. -/
theorem share_work {m : ℕ} (h : BackendInv cfg m s) (hw : s.work cfg = some s')
    (hsnap : s.worker.snapshots = false) (k : ℕ) :
    s'.taken k + s'.worker.share k ≤ s.taken k + s.worker.share k := by
  have hk := h.taken_work hw k
  cases h.turn hw with
  | moves hm hunreads =>
    rw [State.unread, State.unread, hunreads] at hk
    by_cases hended : s'.worker.ended = true
    · rw [Worker.share_of_ended hended]
      omega
    · obtain ⟨hle, -⟩ := hm.share (i := k) hsnap (by simpa using hended)
      omega
  | @takes down x n budget totalLen result rest e es hs hx hunreads hconsumers hw =>
    have hlt := (List.getElem?_eq_some_iff.mp hx).choose
    rw [State.unread, State.unread, hunreads] at hk
    rw [hs]
    by_cases hxk : x = k
    · subst hxk
      rw [List.getElem?_set_self hlt, hx, Option.getD_some, Option.getD_some,
        List.length_cons] at hk
      rcases hw with ⟨-, hw⟩ | ⟨f, rfl, hw⟩
      all_goals
        rw [hw]
        simp only [Worker.share, if_true]
        omega
    · rw [List.getElem?_set_ne hxk] at hk
      rcases hw with ⟨-, hw⟩ | ⟨f, rfl, hw⟩
      all_goals
        rw [hw]
        simp only [Worker.share, if_neg hxk]
        omega
  | @retired down kept hs hunreads hconsumers hw =>
    rw [State.unread, State.unread, hunreads] at hk
    rw [hs, hw]
    cases down
    all_goals
      simp only [Worker.share, Bool.false_eq_true, if_false, if_true]
      omega

/-- A thread that waits is visited in the pass that starts next at the latest. -/
theorem defers_work {m : ℕ} (h : BackendInv cfg m s) (hi : s.unread i ≠ [])
    (hw : s.work cfg = some s') (htaken : s'.taken i = s.taken i) :
    (∃ down, s.worker = .snapshot down ∧ s'.worker = .visit down s.consumers ∧
        s'.consumers = s.consumers ∧ s'.unreads = s.unreads ∧
        s.worker.defers i = true ∧ s'.worker.defers i = false) ∨
      s.worker.snapshots = false ∧ (s'.worker.defers i = true → s.worker.defers i = true) := by
  have hsum := h.taken_work hw i
  cases h.turn hw with
  | moves hm hunreads hconsumers =>
    by_cases hsnap : s.worker.snapshots = true
    · refine .inl ?_
      have hpos : 0 < MAX_BATCH_PER_CONSUMER * s.consumers.count i :=
        Nat.mul_pos (by decide) (List.count_pos_iff.mpr (h.registered_of_unread hi))
      generalize hw : s.worker = w at hm hsnap
      generalize hw' : s'.worker = w' at hm
      cases hm with
      | @snapshot down =>
        refine ⟨down, rfl, rfl, hconsumers, hunreads, rfl, ?_⟩
        simp [Worker.defers, Worker.share, hpos.ne']
      | _ => cases hsnap
    · rw [Bool.not_eq_true] at hsnap
      refine .inr ⟨hsnap, fun hdefers => ?_⟩
      have hended : s'.worker.ended = false := by
        by_contra hended
        rw [Worker.defers_of_ended (by simpa using hended)] at hdefers
        cases hdefers
      obtain ⟨-, hsame⟩ := hm.share (i := i) hsnap hended
      rw [Worker.defers, hm.not_ended, ← hsame hi, ← hended]
      exact hdefers
  | @takes down x n budget totalLen result rest e es hs hx hunreads hconsumers hw =>
    have hlt := (List.getElem?_eq_some_iff.mp hx).choose
    rw [State.unread, State.unread, hunreads] at hsum
    have hxi : x ≠ i := by
      rintro rfl
      rw [List.getElem?_set_self hlt, hx, Option.getD_some, Option.getD_some,
        List.length_cons] at hsum
      omega
    rw [hs]
    refine .inr ⟨rfl, fun hdefers => ?_⟩
    rcases hw with ⟨-, hw⟩ | ⟨f, rfl, hw⟩
    all_goals
      rw [hw] at hdefers
      simpa [Worker.defers, Worker.ended, Worker.share, hxi] using hdefers
  | @retired down kept hs hunreads hconsumers hw =>
    rw [hs]
    exact .inr ⟨rfl, fun _ => rfl⟩

/-- As long as thread `i` waits, a record taken from another thread is one overtaker less. -/
theorem overtakers_work {m : ℕ} (h : BackendInv cfg m s) (ho : Orderly s)
    (hi : s.unread i ≠ []) (hw : s.work cfg = some s') (htaken : s'.taken i = s.taken i)
    (k : ℕ) : s'.taken k + s'.overtakers i k ≤ s.taken k + s.overtakers i k := by
  unfold State.overtakers
  rcases defers_work h hi hw htaken with
    ⟨down, hs, hs', -, hunreads, hdefers, hdefers'⟩ | ⟨hsnap, hdefers⟩
  · have hk := h.taken_work hw k
    rw [State.unread, State.unread, hunreads] at hk
    have hlast : MAX_BATCH_PER_CONSUMER * s.consumers.count k ≤ MAX_BATCH_PER_CONSUMER :=
      Nat.mul_le_mul_left _ (List.nodup_iff_count_le_one.mp ho.nodup k)
    rw [hdefers, hdefers', hs, hs']
    simp only [Worker.share, Bool.false_eq_true, if_false, if_true]
    omega
  · have hshare := share_work h hw hsnap k
    have hnext : (if s'.worker.defers i then MAX_BATCH_PER_CONSUMER else 0) ≤
        if s.worker.defers i then MAX_BATCH_PER_CONSUMER else 0 := by
      split_ifs with h₁ h₂
      · exact le_rfl
      · exact absurd (hdefers h₁) h₂
      · exact Nat.zero_le _
      · exact le_rfl
    omega

/-- Whatever the threads do, no more than two batches are taken from any other thread before a
record that is the oldest one of its queue. -/
theorem overtaken_boundedly (hs : (system cfg level).Reachable s) (hj : s.Reached i j)
    (hr : (system cfg level).runFrom s es = some s') (hwaits : s'.taken i ≤ j) (k : ℕ) :
    s'.taken k ≤ s.taken k + 2 * MAX_BATCH_PER_CONSUMER := by
  have hrun := hs.amortized (I := fun u => u.Reached i j) (P := fun u => u.taken i ≤ j)
    (f := fun u => u.taken k + u.overtakers i k) (p := fun _ _ => false)
    (q := fun _ _ => false) (c := 0) (fun u e u' hu hj he => hj.step hu he) ?_ hj hr hwaits
  · have hover : s.overtakers i k ≤ 2 * MAX_BATCH_PER_CONSUMER := by
      have hshare := (orderly hs).share_le k
      unfold State.overtakers
      split_ifs <;> omega
    have hrank := hrun.2
    omega
  · intro u e u' hu hj he hwaits
    obtain ⟨m, h⟩ := backend_invariant hu
    have hmono := h.taken_le he i
    have hsame : u'.taken i = u.taken i := by
      have := hj.1
      omega
    refine ⟨hmono.trans hwaits, ?_⟩
    rw [Bool.toNat_false, Nat.zero_mul, Nat.zero_add]
    by_cases hwork : e = .work
    · subst hwork
      exact overtakers_work h (orderly hu) (hj.unread (hmono.trans hwaits)) he hsame k
    · have haside := (h.aside he hwork).worker
      rw [taken_aside h he hwork, State.overtakers, haside]
      exact le_rfl

/-- Two threads have logged a record each. -/
def bothLogged : List (Event small) :=
  List.flatten [[.spawn, .register 0, .spawn, .register 1], logCall 0 (customRecord 1),
    logCall 1 (customRecord 1)]

theorem bothLogged_waits : ∃ s s', (smallSystem fun _ => .ok "one").run bothLogged = some s ∧
    (smallSystem fun _ => .ok "one").runFrom s (.replicate 7 .work) = some s' ∧
    s.Reached 1 0 ∧ s'.taken 1 = 0 ∧ s'.taken 0 = 1 := by
  have hrun : ((smallSystem fun _ => .ok "one").run bothLogged).bind (fun s =>
      ((smallSystem fun _ => .ok "one").runFrom s (.replicate 7 .work)).map fun s' =>
        (s.threads.map fun th => th.committed.length, s'.taken 1, s'.taken 0)) =
      some ([1, 1], 0, 1) := by decide +kernel
  obtain ⟨s, hs, hrun⟩ := Option.bind_eq_some_iff.mp hrun
  obtain ⟨s', hs', hvalues⟩ := Option.map_eq_some_iff.mp hrun
  simp only [Prod.mk.injEq] at hvalues
  obtain ⟨hcommitted, hwaits, htaken⟩ := hvalues
  have hsecond : (s.threads.map fun th => th.committed.length)[1]? = some 1 := by
    rw [hcommitted]
    rfl
  rw [List.getElem?_map] at hsecond
  obtain ⟨th, hi, hth⟩ := Option.map_eq_some_iff.mp hsecond
  exact ⟨s, s', hs, hs', ⟨Nat.zero_le _, th, hi, one_pos.trans_eq hth.symm⟩, hwaits, htaken⟩

theorem overtaken_boundedly_once : ∃ s s',
    (smallSystem fun _ => .ok "one").run bothLogged = some s ∧
    (smallSystem fun _ => .ok "one").runFrom s (.replicate 7 .work) = some s' ∧
    s'.taken 0 = 1 ∧ s'.taken 0 ≤ s.taken 0 + 2 * MAX_BATCH_PER_CONSUMER := by
  obtain ⟨s, s', hs, hs', hreached, hwaits, htaken⟩ := bothLogged_waits
  exact ⟨s, s', hs, hs', htaken, overtaken_boundedly ⟨_, hs⟩ hreached hs' hwaits.le 0⟩

end Overtaking
section Waiting

/-- The steps of a visit when no logger has more than `S` sinks. -/
def visitSteps (S : ℕ) : ℕ := MAX_BATCH_PER_CONSUMER * (S + 5) + 2

/-- The steps of a pass over `n` consumers. -/
def passSteps (S n : ℕ) : ℕ := visitSteps S * n + 3 * n + 7

/-- The steps until the next pass starts, when `n` consumers are registered. -/
def Worker.stepsLeft (S n : ℕ) : Worker t → ℕ
  | .top => 2
  | .snapshot _ => 1
  | .visit _ rest => visitSteps S * rest.length + (3 * n + 7)
  | .poll _ _ budget rest => (S + 5) * budget + 1 + visitSteps S * rest.length + (3 * n + 7)
  | .peek _ _ budget _ rest =>
      (S + 5) * budget + (S + 5) + visitSteps S * rest.length + (3 * n + 7)
  | .read _ _ budget _ rest =>
      (S + 5) * budget + (S + 4) + visitSteps S * rest.length + (3 * n + 7)
  | .advance _ _ budget _ _ rest =>
      (S + 5) * budget + (S + 3) + visitSteps S * rest.length + (3 * n + 7)
  | .fanout _ budget rest _ sinks =>
      (S + 5) * budget + (sinks.length + 2) + visitSteps S * rest.length + (3 * n + 7)
  | .retire _ _ rest => 2 * rest.length + (n + 6)
  | .retireDead _ _ _ rest => 2 * rest.length + (n + 7)
  | .beforePending => n + 4
  | .pending rest => rest.length + 3
  | .done => 0
  | .unwound => 0

/-- A registration adds a consumer to look at. -/
theorem Worker.stepsLeft_succ (w : Worker t) (S n : ℕ) :
    w.stepsLeft S (n + 1) ≤ w.stepsLeft S n + 3 := by
  cases w <;> simp only [stepsLeft] <;> omega

/-- Apart from the snapshot, every step of the worker is one of those left. -/
theorem Moves.stepsLeft {w w' : Worker t} (h : Moves cfg s w w') (hs : w.snapshots = false)
    (S : ℕ) : 1 + w'.stepsLeft S s.consumers.length ≤ w.stepsLeft S s.consumers.length := by
  cases h with
  | snapshot => cases hs
  | visit =>
    simp only [Worker.stepsLeft, visitSteps, MAX_BATCH_PER_CONSUMER, List.length_cons, Nat.mul_add]
    omega
  | empty =>
    simp only [Worker.stepsLeft, Nat.mul_add]
    omega
  | poll =>
    simp only [Worker.stepsLeft, Nat.mul_add]
    omega
  | _ =>
    simp only [Worker.stepsLeft, List.length_cons, List.length_nil]
    omega

/-- The snapshot starts a pass over all consumers. -/
theorem stepsLeft_visit (down : Bool) (l : List ℕ) :
    Worker.stepsLeft S l.length (.visit down l : Worker t) = passSteps S l.length := by
  rw [Worker.stepsLeft, passSteps, Nat.add_assoc]

/-- What is left of a pass is not more than a pass. -/
theorem BackendInv.stepsLeft_le {m : ℕ} (h : BackendInv cfg m s) (ho : Orderly s)
    (hS : ∀ p, (cfg.logger p).sinks.length ≤ S) :
    s.worker.stepsLeft S s.consumers.length ≤ passSteps S s.consumers.length := by
  have hlist := ho.list.length_le
  have hbudget := ho.budget
  have hok := h.worker
  have hvisit {b : ℕ} {rest : List ℕ} (hl : rest.length + 1 ≤ s.consumers.length)
      (hb : b ≤ MAX_BATCH_PER_CONSUMER) :
      (S + 5) * b + 2 + visitSteps S * rest.length ≤ visitSteps S * s.consumers.length := by
    have hfirst : (S + 5) * b + 2 ≤ visitSteps S := by
      unfold visitSteps
      rw [Nat.mul_comm (S + 5)]
      exact Nat.add_le_add_right (Nat.mul_le_mul_right _ hb) 2
    calc (S + 5) * b + 2 + visitSteps S * rest.length
        ≤ visitSteps S + visitSteps S * rest.length := Nat.add_le_add_right hfirst _
      _ = visitSteps S * (rest.length + 1) := by rw [Nat.mul_succ, Nat.add_comm]
      _ ≤ visitSteps S * s.consumers.length := Nat.mul_le_mul_left _ hl
  unfold passSteps
  cases hw : s.worker with
  | visit down rest =>
    rw [hw] at hlist
    have := Nat.mul_le_mul_left (visitSteps S) hlist
    simp only [Worker.stepsLeft, Worker.list] at *
    omega
  | poll down j budget rest =>
    rw [hw] at hlist hbudget
    have := hvisit (b := budget) hlist hbudget
    simp only [Worker.stepsLeft]
    omega
  | peek down j budget avail rest =>
    rw [hw] at hlist hbudget
    have := hvisit (b := budget + 1) hlist hbudget
    rw [Nat.mul_succ] at this
    simp only [Worker.stepsLeft]
    omega
  | read down j budget totalLen rest =>
    rw [hw] at hlist hbudget
    have := hvisit (b := budget + 1) hlist hbudget
    rw [Nat.mul_succ] at this
    simp only [Worker.stepsLeft]
    omega
  | advance down j budget totalLen result rest =>
    rw [hw] at hlist hbudget
    have := hvisit (b := budget + 1) hlist hbudget
    rw [Nat.mul_succ] at this
    simp only [Worker.stepsLeft]
    omega
  | fanout down budget rest f sinks =>
    rw [hw] at hlist hbudget hok
    have := hvisit (b := budget + 1) hlist hbudget
    rw [Nat.mul_succ] at this
    obtain ⟨-, -, th, -, pre, raw, -, -, -, hsinks⟩ := hok
    have hlength : sinks.length ≤ S := by
      rw [hsinks, List.length_drop]
      exact (Nat.sub_le _ _).trans (hS raw.loggerPtr)
    simp only [Worker.stepsLeft]
    omega
  | retire down kept rest =>
    rw [hw] at hlist
    simp only [Worker.stepsLeft, Worker.list, List.length_append] at *
    omega
  | retireDead down kept j rest =>
    rw [hw] at hlist
    simp only [Worker.stepsLeft, Worker.list, List.length_append, List.length_cons] at *
    omega
  | pending rest =>
    rw [hw] at hlist
    simp only [Worker.stepsLeft, Worker.list] at *
    omega
  | _ =>
    simp only [Worker.stepsLeft]
    omega

/-- Within a pass, every step of the worker is one of those left, and retiring consumers adds
none. -/
theorem stepsLeft_work {m : ℕ} (h : BackendInv cfg m s) (ho : Orderly s)
    (hS : ∀ p, (cfg.logger p).sinks.length ≤ S) (hw : s.work cfg = some s')
    (hsnap : s.worker.snapshots = false) : s'.consumers.length ≤ s.consumers.length ∧
      1 + s'.worker.stepsLeft S s'.consumers.length ≤
        s.worker.stepsLeft S s.consumers.length := by
  cases h.turn hw with
  | moves hm hunreads hconsumers =>
    rw [hconsumers]
    exact ⟨le_rfl, hm.stepsLeft hsnap S⟩
  | @takes down x n budget totalLen result rest e es hs hx hunreads hconsumers hw =>
    have hlength := hS e.record.loggerPtr
    rw [hconsumers, hs]
    refine ⟨le_rfl, ?_⟩
    rcases hw with ⟨-, hw⟩ | ⟨f, rfl, hw⟩
    all_goals
      rw [hw]
      simp only [Worker.stepsLeft]
      omega
  | @retired down kept hs hunreads hconsumers hw =>
    have hkept := ho.list.length_le
    rw [hs, Worker.list, List.append_nil] at hkept
    rw [hconsumers, hs, hw]
    refine ⟨hkept, ?_⟩
    cases down
    all_goals
      simp only [Worker.stepsLeft, Bool.false_eq_true, if_false, if_true, List.length_nil]
      omega

theorem passSteps_mono {m : ℕ} (S : ℕ) (h : n ≤ m) : passSteps S n ≤ passSteps S m := by
  have := Nat.mul_le_mul_left (visitSteps S) h
  unfold passSteps
  omega

theorem passSteps_succ (S n : ℕ) : passSteps S (n + 1) = passSteps S n + (visitSteps S + 3) := by
  unfold passSteps
  rw [Nat.mul_succ]
  omega

/-- The steps of the worker until a record of thread `i` is taken, if it is the oldest one. -/
def State.wait (S : ℕ) (s : State t) (i : ℕ) : ℕ :=
  s.worker.stepsLeft S s.consumers.length +
    if s.worker.defers i then passSteps S s.consumers.length else 0

theorem wait_work {m : ℕ} (h : BackendInv cfg m s) (ho : Orderly s)
    (hS : ∀ p, (cfg.logger p).sinks.length ≤ S) (hi : s.unread i ≠ [])
    (hw : s.work cfg = some s') (htaken : s'.taken i = s.taken i) :
    1 + s'.wait S i ≤ s.wait S i := by
  unfold State.wait
  rcases defers_work h hi hw htaken with
    ⟨down, hs, hs', hconsumers, -, hdefers, hdefers'⟩ | ⟨hsnap, hdefers⟩
  · rw [hdefers, hdefers', hs, hs', hconsumers, stepsLeft_visit, Worker.stepsLeft]
    simp
  · obtain ⟨hlength, hleft⟩ := stepsLeft_work h ho hS hw hsnap
    have hnext : (if s'.worker.defers i then passSteps S s'.consumers.length else 0) ≤
        if s.worker.defers i then passSteps S s.consumers.length else 0 := by
      split_ifs with h₁ h₂
      · exact passSteps_mono S hlength
      · exact absurd (hdefers h₁) h₂
      · exact Nat.zero_le _
      · exact le_rfl
    omega

/-- A thread registers. -/
def registers (_ : State t) : Event t → Bool
  | .register _ => true
  | _ => false

/-- The other steps leave the registry alone, unless a thread registers. -/
theorem consumers_aside (he : step cfg s e = some s') (hne : e ≠ .work) :
    s'.consumers.length = s.consumers.length + (registers s e).toNat := by
  cases e with
  | register j =>
    obtain ⟨th, hj, hr⟩ := Option.bind_eq_some_iff.mp he
    unfold State.register at hr
    split at hr
    · cases hr
    · cases hr
      exact List.length_append
  | act j a =>
    obtain ⟨th, hj, hr⟩ := Option.bind_eq_some_iff.mp he
    obtain ⟨th', ha, rfl⟩ := Option.map_eq_some_iff.mp hr
    rfl
  | work => exact absurd rfl hne
  | _ =>
    cases he
    rfl

theorem works_eq_false (s : State t) (hne : e ≠ .work) : works s e = false := by
  cases e with
  | work => exact absurd rfl hne
  | _ => rfl

theorem registers_work (s : State t) : registers s .work = false := rfl

/-- A registration adds a visit in the pass that comes next, and a consumer to look at in the one
under way. -/
theorem stepsLeft_aside {m : ℕ} (h : BackendInv cfg m s) (he : step cfg s e = some s')
    (hne : e ≠ .work) : s'.worker = s.worker ∧
      s'.worker.stepsLeft S s'.consumers.length ≤
        s.worker.stepsLeft S s.consumers.length + 3 * (registers s e).toNat ∧
      passSteps S s'.consumers.length =
        passSteps S s.consumers.length + (visitSteps S + 3) * (registers s e).toNat := by
  have hworker := (h.aside he hne).worker
  rw [hworker, consumers_aside he hne]
  refine ⟨rfl, ?_⟩
  cases registers s e with
  | false => exact ⟨le_rfl, rfl⟩
  | true =>
    rw [Bool.toNat_true, Nat.mul_one, Nat.mul_one]
    exact ⟨s.worker.stepsLeft_succ S _, passSteps_succ S _⟩

/-- Whatever the threads do, a record that is the oldest one of its queue is taken within two
passes of the worker, unless that ends. -/
theorem taken_within_two_passes (hS : ∀ p, (cfg.logger p).sinks.length ≤ S)
    (hs : (system cfg level).Reachable s) (hj : s.Reached i j)
    (hr : (system cfg level).runFrom s es = some s') (hwaits : s'.taken i ≤ j) :
    (system cfg level).count works s es ≤ 2 * passSteps S s.consumers.length +
      (visitSteps S + 6) * (system cfg level).count registers s es := by
  have hrun := hs.amortized (I := fun u => u.Reached i j) (P := fun u => u.taken i ≤ j)
    (f := fun u => u.wait S i) (p := registers) (q := works) (c := visitSteps S + 6)
    (fun u e u' hu hj he => hj.step hu he) ?_ hj hr hwaits
  · have hwait : s.wait S i ≤ 2 * passSteps S s.consumers.length := by
      obtain ⟨m, h⟩ := backend_invariant hs
      have hleft := h.stepsLeft_le (orderly hs) hS
      unfold State.wait
      split_ifs <;> omega
    have hcount := hrun.2
    omega
  · intro u e u' hu hj he hwaits
    obtain ⟨m, h⟩ := backend_invariant hu
    have hmono := h.taken_le he i
    have hsame : u'.taken i = u.taken i := by
      have := hj.1
      omega
    refine ⟨hmono.trans hwaits, ?_⟩
    by_cases hwork : e = .work
    · subst hwork
      have hstep := wait_work h (orderly hu) hS (hj.unread (hmono.trans hwaits)) he hsame
      rw [registers_work]
      exact hstep
    · obtain ⟨hworker, hleft, hpass⟩ := stepsLeft_aside (S := S) h he hwork
      have hmul : (visitSteps S + 6) * (registers u e).toNat =
          3 * (registers u e).toNat + (visitSteps S + 3) * (registers u e).toNat := by
        rw [Nat.add_mul, Nat.add_mul]
        omega
      rw [works_eq_false u hwork, State.wait, State.wait, hmul]
      rw [hworker] at hleft ⊢
      split_ifs
      · rw [hpass, Bool.toNat_false]
        omega
      · rw [Bool.toNat_false]
        omega

theorem taken_within_two_passes_both : ∃ s s',
    (smallSystem fun _ => .ok "one").run bothLogged = some s ∧
    (smallSystem fun _ => .ok "one").runFrom s (.replicate 7 .work) = some s' ∧
    (smallSystem fun _ => .ok "one").count works s (.replicate 7 .work) ≤
      2 * passSteps 1 s.consumers.length + (visitSteps 1 + 6) *
        (smallSystem fun _ => .ok "one").count registers s (.replicate 7 .work) := by
  obtain ⟨s, s', hs, hs', hreached, hwaits, -⟩ := bothLogged_waits
  exact ⟨s, s', hs, hs', taken_within_two_passes (fun _ => le_rfl) ⟨_, hs⟩ hreached hs' hwaits.le⟩

end Waiting

section Stopping

/-- The steps until `run` returns, when it is not to wait for the queues. -/
def State.stopsIn (S : ℕ) (s : State t) : ℕ :=
  if s.worker.snapshots then 1 + passSteps S s.consumers.length
  else s.worker.stepsLeft S s.consumers.length

theorem Turn.snapshots (h : Turn cfg s s') (htop : s.worker ≠ .top) :
    s'.worker.snapshots = false := by
  cases h with
  | moves hm =>
    generalize hw : s.worker = w at hm htop
    generalize hw' : s'.worker = w' at hm
    cases hm with
    | top => exact absurd rfl htop
    | _ => rfl
  | takes hs hi hunreads hconsumers hw =>
    rcases hw with ⟨-, hw⟩ | ⟨f, -, hw⟩
    all_goals
      rw [hw]
      rfl
  | @retired down kept hs hunreads hconsumers hw =>
    rw [hw]
    cases down <;> rfl

theorem stopsIn_work {m : ℕ} (hwait : cfg.waitForDrain = false) (h : BackendInv cfg m s)
    (ho : Orderly s) (hS : ∀ p, (cfg.logger p).sinks.length ≤ S) (hflag : s.shutdownFlag = true)
    (hw : s.work cfg = some s') : 1 + s'.stopsIn S ≤ s.stopsIn S := by
  have hturn := h.turn hw
  by_cases htop : s.worker = .top
  · simp only [State.work, htop, hflag, hwait, Bool.not_false, Bool.and_self, if_true,
      Option.some.injEq] at hw
    subst hw
    simp [State.stopsIn, htop, Worker.snapshots, Worker.stepsLeft]
  · rw [State.stopsIn, hturn.snapshots htop, if_neg (by decide)]
    by_cases hsnap : s.worker.snapshots = true
    · rw [State.stopsIn, if_pos hsnap]
      cases hturn with
      | moves hm hunreads hconsumers =>
        rw [hconsumers]
        generalize hw : s.worker = w at hm hsnap
        generalize hw' : s'.worker = w' at hm
        cases hm with
        | snapshot => rw [stepsLeft_visit]
        | _ => cases hsnap
      | takes hs => rw [hs] at hsnap; cases hsnap
      | retired hs => rw [hs] at hsnap; cases hsnap
    · rw [State.stopsIn, if_neg hsnap]
      exact (stepsLeft_work h ho hS hw (by simpa using hsnap)).2

/-- Without `wait_for_drain`, `run` returns within a pass once the flag is set, or is unwound by a
decoder that panics, although the threads go on. -/
theorem stops_within_a_pass (hwait : cfg.waitForDrain = false)
    (hS : ∀ p, (cfg.logger p).sinks.length ≤ S) (hs : (system cfg level).Reachable s)
    (hflag : s.shutdownFlag = true) (hr : (system cfg level).runFrom s es = some s') :
    (system cfg level).count works s es ≤ 1 + passSteps S s.consumers.length +
        (visitSteps S + 3) * (system cfg level).count registers s es ∧
      (s'.worker.ended = false → ∃ s'', s'.work cfg = some s'') := by
  constructor
  · have hrun := hs.amortized (I := fun u => u.shutdownFlag = true) (P := fun _ => True)
      (f := State.stopsIn S) (p := registers) (q := works) (c := visitSteps S + 3) ?_ ?_ hflag hr
      trivial
    · have hfirst : s.stopsIn S ≤ 1 + passSteps S s.consumers.length := by
        obtain ⟨m, h⟩ := backend_invariant hs
        have hleft := h.stepsLeft_le (orderly hs) hS
        unfold State.stopsIn
        split_ifs <;> omega
      have hcount := hrun.2
      omega
    · intro u e u' hu hflag he
      obtain ⟨m, h⟩ := backend_invariant hu
      obtain ⟨mark, hmark⟩ := Option.isSome_iff_exists.mp (h.flag.symm.trans hflag)
      obtain ⟨m', h'⟩ := backend_invariant (hu.step he)
      rw [h'.flag, (step_grows hu he).mark mark hmark]
      rfl
    · intro u e u' hu hflag he _
      refine ⟨trivial, ?_⟩
      obtain ⟨m, h⟩ := backend_invariant hu
      by_cases hwork : e = .work
      · subst hwork
        exact stopsIn_work hwait h (orderly hu) hS hflag he
      · obtain ⟨hworker, hleft, hpass⟩ := stepsLeft_aside (S := S) h he hwork
        have hmul : 3 * (registers u e).toNat ≤ (visitSteps S + 3) * (registers u e).toNat :=
          Nat.mul_le_mul_right _ (Nat.le_add_left _ _)
        rw [works_eq_false u hwork, State.stopsIn, State.stopsIn, Bool.toNat_false]
        rw [hworker] at hleft ⊢
        split_ifs <;> omega
  · intro hended
    obtain ⟨m, h⟩ := backend_invariant (hs.runFrom hr)
    refine h.goes_on (fun hdone => ?_) fun hun => ?_
    · rw [hdone] at hended
      cases hended
    · rw [hun] at hended
      cases hended

theorem stops_within_a_pass_busy :
    let cfg := { smallConfig fun _ => .ok "one" with waitForDrain := false }
    let M := system cfg fun _ => .trace
    ∃ s s', M.run (bothLogged ++ .replicate 7 .work ++ [.shutdown]) = some s ∧
      M.runFrom s (logCall 0 (customRecord 1) ++ .replicate 5 .work) = some s' ∧
      M.count works s (logCall 0 (customRecord 1) ++ .replicate 5 .work) ≤
        1 + passSteps 1 s.consumers.length + (visitSteps 1 + 3) *
          M.count registers s (logCall 0 (customRecord 1) ++ .replicate 5 .work) ∧
      (s'.worker.ended = false → ∃ s'', s'.work cfg = some s'') := by
  intro cfg M
  have hrun : (M.run (bothLogged ++ .replicate 7 .work ++ [.shutdown])).bind (fun s =>
      (M.runFrom s (logCall 0 (customRecord 1) ++ .replicate 5 .work)).map fun _ =>
        s.shutdownFlag) = some true := by decide +kernel
  obtain ⟨s, hs, hrun⟩ := Option.bind_eq_some_iff.mp hrun
  obtain ⟨s', hs', hflag⟩ := Option.map_eq_some_iff.mp hrun
  exact ⟨s, s', hs, hs', stops_within_a_pass rfl (fun _ => le_rfl) ⟨_, hs⟩ hflag hs'⟩

end Stopping
end Insomnilog.Backend

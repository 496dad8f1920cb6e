import Insomnilog.Visibility.Loads

/-! The plain accesses do not race, and keep the invariant. -/
namespace Insomnilog.Visibility
open ByteStore Queue ReleaseAcquire RingPosition

variable {w k : ℕ} {s s' : State w}

/-- The list of a thread's accesses with one more, which is a good one. -/
theorem forall_concat {β : Type*} {l : List β} {x y : β} {n : ℕ} {P : ℕ → β → Prop}
    (hold : ∀ n y, l[n]? = some y → P n y) (hnew : P l.length x) (h : (l ++ [x])[n]? = some y) :
    P n y := by
  by_cases hn : n < l.length
  · rw [List.getElem?_append_left hn] at h
    exact hold n y h
  · have hlen := (List.getElem?_eq_some_iff.mp h).choose
    rw [List.length_append, List.length_singleton] at hlen
    obtain rfl : n = l.length := by omega
    rw [List.getElem?_concat_length] at h
    cases h
    exact hnew

namespace Visible

/-- The bytes that the worker may still look at are no part of the slice being written. -/
theorem producer_free (h : Visible k s) {address : ℕ}
    (hin : InChunk k s.queue.written s.queue.producer.reserved s.queue.written.length address) :
    ¬ s.memory.Races .producer ⟨address, .write⟩ := by
  intro hraces
  obtain ⟨r, hr, -, hroom⟩ := h.caches.producer
  obtain ⟨b, hb, n, y, hn, hy, haddress, -⟩ := hraces.cases
  cases b with
  | producer => exact hb rfl
  | closer =>
    rw [h.accesses.closer] at hy
    cases hy
  | worker =>
    obtain ⟨-, i, -, hi, hiny, hhanded⟩ := h.accesses.worker n y hy
    by_cases hir : i < r
    · exact absurd (hhanded.acquired hr hir) (Nat.not_lt.mpr hn)
    · have hstart := start_mono s.queue.written (Nat.le_of_not_lt hir)
      exact hiny.ne hin hi (hroom.trans (Nat.add_le_add_right hstart _)) haddress.symm

/-- The bytes of the next chunk have been handed on to the worker. -/
theorem worker_free (h : Visible k s) {a : Access} {off i : ℕ} {len : BitVec w}
    {seen : Observations} (hc : s.queue.consumer = .holding a off len seen) (hi : i < len.toNat)
    {address : ℕ} (hin : InChunk k s.queue.written s.queue.producer.reserved
      s.queue.reads.length address) : ¬ s.memory.Races .worker ⟨address, .read⟩ := by
  intro hraces
  obtain ⟨j, hj, -, -, hspan⟩ := h.caches.worker
  have hlt : s.queue.reads.length < j := by
    by_contra hge
    have hle := start_mono s.queue.written (Nat.le_of_not_lt hge)
    have := hspan a off len seen hc
    omega
  obtain ⟨b, hb, n, y, hn, hy, haddress, -⟩ := hraces.cases
  cases b with
  | worker => exact hb rfl
  | closer =>
    rw [h.accesses.closer] at hy
    cases hy
  | producer =>
    obtain ⟨m, hiny, hhanded⟩ := h.accesses.producer n y hy
    by_cases hmj : m < j
    · exact absurd (hhanded.acquired hj hmj) (Nat.not_lt.mpr hn)
    · exact hin.ne hiny (hlt.trans_le (Nat.le_of_not_lt hmj)) h.queue.queue.window haddress

/-- An access that does not race. -/
theorem access (h : Visible k s) {a : Thread} {x : Plain ℕ} (hfree : ¬ s.memory.Races a x)
    (haccesses : Accesses k s.queue.written s.queue.reads.length s.queue.producer.reserved
      (s.memory.access a x)) : Visible k (s.access a x) := by
  have hraised := h.raise (a := a) (v := .after a ((s.memory.accesses a).length + 1))
    (h.closed.raise fun l => h.closed.pos a l)
  obtain ⟨⟨r, hr, hproducer⟩, j, hj, hworker⟩ := h.caches
  exact
    { queue := h.queue
      clocked := h.clocked.access a x
      closed := h.closed.access a x
      raceFree := Memory.access_raced h.raceFree hfree
      histories := ⟨h.histories.writes, h.histories.reads, h.histories.write, h.histories.read⟩
      accesses := haccesses
      caches := ⟨⟨r, hr.access a x, hproducer⟩, j, hj.access a x, hworker⟩
      flags := ⟨hraised.flags.commits, hraised.flags.idle, hraised.flags.cleared,
        hraised.flags.dead, hraised.flags.retired, hraised.flags.promises,
        hraised.flags.promised, hraised.flags.heard, hraised.flags.stopped⟩ }

theorem written (h : Visible k s) {i : ℕ} {x : Plain ℕ} (hx : s.written i = some x) {n : BitVec w}
    {off : ℕ} (hp : s.queue.producer = .writing off n) (hi : i < n.toNat) :
    Visible k (s.access .producer x) := by
  unfold State.written at hx
  rw [hp] at hx
  cases hx
  have hprod := h.queue.producer
  simp only [ProducerOk, hp] at hprod
  have hin : InChunk k s.queue.written s.queue.producer.reserved s.queue.written.length
      (off + i) := by
    rw [hp]
    exact ⟨i, n.toNat, congrArg (· + i) hprod, hi, .inr ⟨rfl, rfl⟩⟩
  refine h.access (h.producer_free hin) ⟨?_, ?_, ?_⟩
  · rw [Memory.access_of_ne _ _ (show Thread.closer ≠ .producer by decide)]
    exact h.accesses.closer
  · rw [Memory.access_self]
    intro m y hy
    refine forall_concat h.accesses.producer ⟨_, hin, ?_⟩ hy
    exact Memory.handedOn_newest h.histories.writes.le _ _
  · rw [Memory.access_of_ne _ _ (show Thread.worker ≠ .producer by decide)]
    exact h.accesses.worker

theorem observed (h : Visible k s) {i : ℕ} {x : Plain ℕ} (hx : s.observed i = some x)
    {a : Access} {off : ℕ} {len : BitVec w} {seen : Observations}
    (hc : s.queue.consumer = .holding a off len seen) (hi : i < len.toNat) :
    Visible k (s.access .worker x) := by
  unfold State.observed at hx
  rw [hc] at hx
  cases hx
  have hcons := h.queue.consumer
  simp only [ConsumerOk, hc] at hcons
  obtain ⟨c, hnext, rfl, hperm, -, -⟩ := hcons
  have hlt := (List.getElem?_eq_some_iff.mp hnext).choose
  have hin : InChunk k s.queue.written s.queue.producer.reserved s.queue.reads.length
      (c.off + i) := by
    rw [(h.queue.queue.live _ _ le_rfl hnext).1]
    exact ⟨i, c.len, rfl, hi.trans_le hperm.le, .inl ⟨c, hnext, rfl⟩⟩
  refine h.access (h.worker_free hc hi hin) ⟨?_, ?_, ?_⟩
  · rw [Memory.access_of_ne _ _ (show Thread.closer ≠ .worker by decide)]
    exact h.accesses.closer
  · rw [Memory.access_of_ne _ _ (show Thread.producer ≠ .worker by decide)]
    exact h.accesses.producer
  · rw [Memory.access_self]
    intro m y hy
    refine forall_concat h.accesses.worker ⟨rfl, _, le_rfl, hlt, hin, ?_⟩ hy
    exact Memory.handedOn_newest h.histories.reads.le _ _

theorem store (h : Visible k s) {i : ℕ} {b : UInt8} {x : Plain ℕ} (hx : s.written i = some x)
    (hs : (s.access .producer x).plain (.store i b) = some s') : Visible k s' := by
  obtain ⟨queue, hqueue, rfl⟩ := Option.map_eq_some_iff.mp hs
  have hinv := h.queue.step hqueue
  cases hp : s.queue.producer with
  | idle =>
    rw [State.written, hp] at hx
    cases hx
  | returned off n bytes =>
    rw [State.written, hp] at hx
    cases hx
  | writing off n =>
    simp only [State.access, Queue.step, hp] at hqueue
    obtain ⟨hi, hq⟩ := Option.ite_none_right_eq_some.mp hqueue
    cases hq
    exact (h.written hx hp hi).sameStream hinv rfl rfl (congrArg _ hp.symm) rfl rfl
      (fun hf => hp.symm.trans (h.flags.idle hf)) fun a off len seen hc => ⟨seen, hc⟩

theorem closureReturn (h : Visible k s) (hs : s.plain .closureReturn = some s') :
    Visible k s' := by
  obtain ⟨queue, hqueue, rfl⟩ := Option.map_eq_some_iff.mp hs
  have hinv := h.queue.step hqueue
  simp only [Queue.step] at hqueue
  split at hqueue
  next off n hp =>
    cases hqueue
    refine h.sameStream hinv rfl rfl ?_ rfl rfl (fun hf => ?_) fun a off len seen hc => ⟨seen, hc⟩
    · rw [hp]
      rfl
    · cases hp.symm.trans (h.flags.idle hf)
  next => cases hqueue

theorem observe (h : Visible k s) {i : ℕ} {x : Plain ℕ} (hx : s.observed i = some x)
    (hs : (s.access .worker x).plain (.observe i) = some s') : Visible k s' := by
  obtain ⟨queue, hqueue, rfl⟩ := Option.map_eq_some_iff.mp hs
  have hinv := h.queue.step hqueue
  cases hc : s.queue.consumer with
  | idle =>
    rw [State.observed, hc] at hx
    cases hx
  | holding a off len seen =>
    simp only [State.access, Queue.step, hc] at hqueue
    split at hqueue
    next b hb =>
      obtain ⟨hi, hq⟩ := Option.ite_none_right_eq_some.mp hqueue
      cases hq
      refine (h.observed hx hc hi).sameStream hinv rfl rfl rfl rfl rfl h.flags.idle
        fun a' off' len' seen' hc' => ?_
      cases hc'
      exact ⟨seen, hc⟩
    next => cases hqueue

theorem releasePeek (h : Visible k s) {off : ℕ} {len : BitVec w} {seen : Observations}
    (hc : s.queue.consumer = .holding .peek off len seen) (hs : s.plain .release = some s') :
    Visible k s' := by
  obtain ⟨queue, hqueue, rfl⟩ := Option.map_eq_some_iff.mp hs
  have hinv := h.queue.step hqueue
  simp only [Queue.step, hc] at hqueue
  cases hqueue
  refine h.sameStream hinv rfl rfl rfl rfl rfl h.flags.idle fun a' off' len' seen' hc' => ?_
  cases hc'

end Visible

end Insomnilog.Visibility

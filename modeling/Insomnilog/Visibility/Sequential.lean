import Insomnilog.Queue.Fifo
import Insomnilog.Visibility.System

/-! The runs in which every load returns the newest store are those of the queue alone. -/
namespace Insomnilog.Visibility
open ByteStore Queue ReleaseAcquire

variable {w : ℕ} {o : Location → Orders} {s : State w} {u : Queue.State w}

/-- The newest stores have the positions of the queue, and the worker still reads it. -/
structure Newest (s : State w) : Prop where
  closed : s.memory.Closed
  writePos : ∀ msg, (s.memory.history .writePos).getLast? = some msg →
    msg.value = s.queue.q.inner.writePos
  readPos : ∀ msg, (s.memory.history .readPos).getLast? = some msg →
    msg.value = s.queue.q.inner.readPos
  alive : s.alive = true
  free : s.busy = false

namespace Newest

theorem load (h : Newest s) (o : LoadOrder) (a : Thread) (l : Location) {value : l.Value w}
    (hvalue : ∀ msg, (s.memory.history l).getLast? = some msg → msg.value = value) :
    ∃ nth memory, s.memory.load o a l nth = some (value, memory) ∧
      Newest { s with memory } := by
  obtain ⟨msg, hmsg, hload⟩ := h.closed.load_newest o a l
  rw [hvalue msg hmsg] at hload
  exact ⟨_, _, hload, h.closed.load hload, h.writePos, h.readPos, h.alive, h.free⟩

theorem loadReadPos (h : Newest s) (n : BitVec w) :
    ∃ nth memory, s.loadReadPos o n nth = some (s.queue.q.inner.readPos, memory) ∧
      Newest { s with memory } := by
  unfold State.loadReadPos
  dsimp only
  split
  · exact h.load _ _ _ h.readPos
  · exact ⟨0, _, rfl, h⟩

theorem loadWritePos (h : Newest s) :
    ∃ nth memory, s.loadWritePos o nth = some (s.queue.q.inner.writePos, memory) ∧
      Newest { s with memory } := by
  unfold State.loadWritePos
  dsimp only
  split
  · exact ⟨0, _, rfl, h⟩
  · exact h.load _ _ _ h.writePos

/-- The positions are as they were. -/
theorem queue (h : Newest s) {queue : Queue.State w}
    (hwrite : queue.q.inner.writePos = s.queue.q.inner.writePos)
    (hread : queue.q.inner.readPos = s.queue.q.inner.readPos) : Newest { s with queue } :=
  ⟨h.closed, fun msg hmsg => (h.writePos msg hmsg).trans hwrite.symm,
    fun msg hmsg => (h.readPos msg hmsg).trans hread.symm, h.alive, h.free⟩

theorem access (h : Newest s) (a : Thread) (x : Plain ℕ) : Newest (s.access a x) :=
  ⟨h.closed.access a x, h.writePos, h.readPos, h.alive, h.free⟩

/-- A step that leaves the positions alone, after one that leaves the queue alone. -/
theorem plain (h : Newest s) {e : Queue.Event w} (hu : Queue.step s.queue e = some u)
    (hwrite : u.q.inner.writePos = s.queue.q.inner.writePos)
    (hread : u.q.inner.readPos = s.queue.q.inner.readPos) :
    s.plain e = some { s with queue := u } ∧ Newest { s with queue := u } := by
  refine ⟨?_, h.queue hwrite hread⟩
  rw [State.plain, hu]
  rfl

/-- A step of the queue alone can be made here. -/
theorem step (h : Newest s) {e : Queue.Event w} (hu : Queue.step s.queue e = some u) :
    ∃ e' s', Visibility.step o s e' = some s' ∧ s'.queue = u ∧ Newest s' := by
  cases e with
  | reserve n =>
    simp only [Queue.step] at hu
    split at hu <;> cases hu
    next hidle =>
      obtain ⟨nth, memory, hload, h'⟩ := h.loadReadPos (o := o) n
      refine ⟨.reserve n nth, { s with queue := s.queue.reserve n, memory }, ?_, rfl, ?_⟩
      · simp only [Visibility.step, hidle, h.alive, hload]
        rfl
      · apply h'.queue <;>
        · unfold Queue.State.reserve
          split <;> rfl
  | store i b =>
    have hu' := hu
    simp only [Queue.step] at hu'
    split at hu'
    next off n hp =>
      obtain ⟨-, hu'⟩ := Option.ite_none_right_eq_some.mp hu'
      cases hu'
      obtain ⟨hplain, h'⟩ := (h.access .producer ⟨off + i, .write⟩).plain hu rfl rfl
      have hx : s.written i = some ⟨off + i, .write⟩ := by rw [State.written, hp]
      refine ⟨.store i b, _, ?_, rfl, h'⟩
      rw [Visibility.step, hx]
      exact hplain
    next => cases hu'
  | closureReturn =>
    have hu' := hu
    simp only [Queue.step] at hu'
    split at hu' <;> cases hu'
    obtain ⟨hplain, h'⟩ := h.plain hu rfl rfl
    exact ⟨.closureReturn, _, hplain, rfl, h'⟩
  | commit =>
    have hu' := hu
    simp only [Queue.step] at hu'
    split at hu' <;> cases hu'
    next off n bytes hp =>
      refine ⟨.commit, State.put o { s with queue := s.queue.commit off n bytes } .producer
        .writePos (s.queue.commit off n bytes).q.inner.writePos, ?_, rfl, ?_⟩
      · rw [Visibility.step, State.plain, hu]
        rfl
      · refine ⟨h.closed.store _ _ _ _, fun msg hmsg => ?_, h.readPos, h.alive, h.free⟩
        have hlast : ((s.memory.store _ _ _ _).history .writePos).getLast? = some msg := hmsg
        rw [Memory.store_history, List.getLast?_concat] at hlast
        cases hlast
        rfl
  | available =>
    simp only [Queue.step] at hu
    split at hu
    next hidle =>
      obtain ⟨nth, memory, hload, h'⟩ := h.loadWritePos (o := o)
      have hqueue := Option.some.inj hu
      refine ⟨.available nth, { s with queue := u, memory }, ?_, rfl,
        h'.queue (by rw [← hqueue]) (by rw [← hqueue])⟩
      simp only [Visibility.step, hidle, h.free, hload]
      rw [← hqueue]
      rfl
    next => cases hu
  | acquire a len =>
    simp only [Queue.step] at hu
    split at hu
    next chunk hidle hnext =>
      obtain ⟨hguard, hu⟩ := Option.ite_none_right_eq_some.mp hu
      obtain ⟨nth, memory, hload, h'⟩ := h.loadWritePos (o := o)
      have hqueue := Option.some.inj hu
      have hacquire : acquireWith s.queue s.queue.q.inner.writePos a len = some u := by
        simp only [acquireWith, hidle, hnext, ← hqueue]
        exact if_pos hguard
      refine ⟨.acquire a len nth, { s with queue := u, memory }, ?_, rfl,
        h'.queue (by rw [← hqueue]) (by rw [← hqueue])⟩
      simp only [Visibility.step, h.free, hload, Option.bind_some, hacquire]
      rfl
    next => cases hu
  | observe i =>
    have hu' := hu
    simp only [Queue.step] at hu'
    split at hu'
    next a off len seen hc =>
      split at hu'
      next b hb =>
        obtain ⟨-, hu'⟩ := Option.ite_none_right_eq_some.mp hu'
        cases hu'
        obtain ⟨hplain, h'⟩ := (h.access .worker ⟨off + i, .read⟩).plain hu rfl rfl
        have hx : s.observed i = some ⟨off + i, .read⟩ := by rw [State.observed, hc]
        refine ⟨.observe i, _, ?_, rfl, h'⟩
        rw [Visibility.step, hx]
        exact hplain
      next => cases hu'
    next => cases hu'
  | release =>
    have hu' := hu
    simp only [Queue.step] at hu'
    split at hu' <;> cases hu'
    next a off len seen hc =>
      cases a with
      | peek =>
        obtain ⟨hplain, h'⟩ := h.plain hu rfl rfl
        refine ⟨.release, _, ?_, rfl, h'⟩
        simp only [Visibility.step, hc]
        exact hplain
      | read =>
        refine ⟨.release, State.put o { s with queue := s.queue.release .read len seen } .worker
          .readPos (s.queue.release .read len seen).q.inner.readPos, ?_, rfl, ?_⟩
        · simp only [Visibility.step, hc, State.plain, hu]
          rfl
        · refine ⟨h.closed.store _ _ _ _, h.writePos, fun msg hmsg => ?_, h.alive, h.free⟩
          have hlast : ((s.memory.store _ _ _ _).history .readPos).getLast? = some msg := hmsg
          rw [Memory.store_history, List.getLast?_concat] at hlast
          cases hlast
          rfl

end Newest

/-- Every state of the queue in an interleaving is one of the queue here, whatever the
orderings. -/
theorem sequential_reachable {q : Spsc w} (h : (Queue.system q).Reachable u)
    (hwrite : q.inner.writePos = 0) (hread : q.inner.readPos = 0) (o : Location → Orders) :
    ∃ s, (system o q).Reachable s ∧ s.queue = u := by
  have hall : ∃ s, (system o q).Reachable s ∧ s.queue = u ∧ Newest s := by
    refine h.invariant (I := fun u => ∃ s, (system o q).Reachable s ∧ s.queue = u ∧ Newest s)
      ⟨_, .init, rfl, ?_⟩ fun u e u' _ hu he => ?_
    · refine ⟨Memory.init_closed _, fun msg hmsg => ?_, fun msg hmsg => ?_, rfl, rfl⟩
      · cases hmsg
        exact hwrite.symm
      · cases hmsg
        exact hread.symm
    · obtain ⟨s, hs, rfl, hnewest⟩ := hu
      obtain ⟨e', s', he', hs', hnewest'⟩ := hnewest.step (o := o) he
      exact ⟨s', hs.step he', hs', hnewest'⟩
  obtain ⟨s, hs, hqueue, -⟩ := hall
  exact ⟨s, hs, hqueue⟩

theorem sequential_reachable_crossing :
    ∃ u s, (Queue.system smallRing).run crossingRun = some u ∧
      (system inCode smallRing).Reachable s ∧ s.queue = u ∧ s.queue.reads.length = 2 := by
  have hlen : ((Queue.system smallRing).run crossingRun).map (·.reads.length) = some 2 := by decide
  obtain ⟨u, hu, hlen⟩ := Option.map_eq_some_iff.mp hlen
  obtain ⟨s, hs, hqueue⟩ := sequential_reachable ⟨crossingRun, hu⟩ rfl rfl inCode
  exact ⟨u, s, hu, hs, hqueue, hqueue ▸ hlen⟩

end Insomnilog.Visibility

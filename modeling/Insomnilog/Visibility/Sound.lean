import Insomnilog.Visibility.Stores

/-! What the orderings of the code guarantee, and what goes wrong with weaker ones. -/
namespace Insomnilog.Visibility
open ByteStore Queue ReleaseAcquire RingPosition

variable {w : ℕ} {o : Location → Orders} {q : Spsc w} {s : State w}

/-- No byte is touched by two threads at once, the reads return the chunks as they were written,
in order, a queue is let go only after all of it has been read, and the worker leaves its loop only
after it has read whatever was committed before the shutdown it has heard of. -/
structure Sound (C : ℕ) (s : State w) : Prop where
  raceFree : s.memory.raced = false
  fifo : LosslessFifo C s.queue
  retired : s.retired = true → s.alive = false ∧
    ReadUpTo s.queue.written s.queue.reads.length s.queue.written.length
  stopped : s.stopped = true → ReadUpTo s.queue.written s.queue.reads.length s.heard

theorem Visible.sound {k : ℕ} (h : Visible k s) : Sound (2 ^ k) s where
  raceFree := h.raceFree
  fifo := h.queue.losslessFifo
  retired hr := ⟨(h.flags.retired hr).1, readUpTo_of_start (h.flags.retired hr).2⟩
  stopped hs := readUpTo_of_start (h.flags.stopped hs)

theorem init_visible {checks : Bool} {capacity : BitVec w} (hnew : new checks capacity = some q)
    (hfit : 2 * roundUp capacity.toNat < 2 ^ w) :
    ∃ k, roundUp capacity.toNat = 2 ^ k ∧ Visible k (system inCode q).init := by
  obtain ⟨k, hk, hqueue⟩ := init_inv hnew hfit
  obtain ⟨-, -, -, -, -, hproducer, hconsumer⟩ := new_spec hnew hfit
  refine ⟨k, hk, ?_⟩
  exact
    { queue := hqueue
      clocked := Memory.init_clocked _
      closed := Memory.init_closed _
      raceFree := rfl
      histories :=
        { writes := rfl
          reads := rfl
          write := by
            intro j msg hmsg
            obtain ⟨rfl, rfl⟩ := Memory.init_message hmsg
            rfl
          read := by
            intro r msg hmsg
            obtain ⟨rfl, rfl⟩ := Memory.init_message hmsg
            rfl }
      accesses := ⟨rfl, nofun, nofun⟩
      caches :=
        { producer := ⟨0, Memory.init_acquired _ _ _, congrArg _ hproducer, Nat.zero_le _⟩
          worker := ⟨0, Memory.init_acquired _ _ _, congrArg _ hconsumer, le_rfl, nofun⟩ }
      flags :=
        { commits := le_rfl
          idle := nofun
          cleared := by
            intro n msg hmsg hvalue
            obtain ⟨-, rfl⟩ := Memory.init_message hmsg
            cases hvalue
          dead := nofun
          retired := nofun
          promises := rfl
          promised := by
            intro n msg p hmsg hp
            obtain ⟨rfl, -⟩ := Memory.init_message hmsg
            cases hp
            exact Nat.zero_le _
          heard := le_rfl
          stopped := nofun } }

end Insomnilog.Visibility

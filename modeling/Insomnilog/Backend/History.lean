import Insomnilog.Backend.Runner

/-! The history of a run as a function of the decoding results: which records were given
to the sinks, and which calls to the sinks that makes. -/
namespace Insomnilog.Backend
open Wire Frontend

variable {t : Target} {α : Type*}

/-- `f` of every record that decoded, in order. -/
def overDecoded (f : ℕ → RawDecodedRecord t → List α)
    (results : List (Decoded (RawDecodedRecord t))) : List α :=
  results.zipIdx.flatMap fun p =>
    match p.1 with
    | .ok raw => f p.2 raw
    | _ => []

section OverDecoded
variable (f : ℕ → RawDecodedRecord t → List α) (results : List (Decoded (RawDecodedRecord t)))

@[simp] theorem overDecoded_concat_ok (raw : RawDecodedRecord t) :
    overDecoded f (results ++ [.ok raw]) = overDecoded f results ++ f results.length raw := by
  simp [overDecoded, List.zipIdx_append]

theorem overDecoded_concat_not_ok {d : Decoded (RawDecodedRecord t)} (hd : ∀ raw, d ≠ .ok raw) :
    overDecoded f (results ++ [d]) = overDecoded f results := by
  cases d with
  | ok raw => exact absurd rfl (hd raw)
  | _ => simp [overDecoded, List.zipIdx_append]

end OverDecoded

/-- Each record that decoded counts once. -/
theorem count_overDecoded (i j : ℕ) (results : List (Decoded (RawDecodedRecord t))) :
    (overDecoded (fun k _ => [(i, k)]) results).count (i, j) =
      (results[j]?.any Outcome.isOk).toNat := by
  induction results using List.reverseRecOn with
  | nil => rfl
  | append_singleton results d ih =>
    have hlast : (overDecoded (fun k _ => [(i, k)]) (results ++ [d])).count (i, j) =
        (results[j]?.any Outcome.isOk).toNat +
          if j = results.length then d.isOk.toNat else 0 := by
      cases d with
      | ok raw =>
        rw [overDecoded_concat_ok, List.count_append, ih]
        by_cases hj : j = results.length
        · simp [hj, Outcome.isOk]
        · simp [hj, Ne.symm hj]
      | _ =>
        rw [overDecoded_concat_not_ok _ _ (by simp), ih]
        simp [Outcome.isOk]
    rw [hlast]
    rcases Nat.lt_trichotomy j results.length with hlt | rfl | hgt
    · rw [List.getElem?_append_left hlt, if_neg (by omega), Nat.add_zero]
    · simp
    · rw [List.getElem?_eq_none hgt.le, List.getElem?_eq_none (by simp; omega),
        if_neg (by omega), Nat.add_zero]

/-- All calls that the fan-out of a record makes. -/
def Config.callsFor (cfg : Config t) (i j : ℕ) (raw : RawDecodedRecord t) : List (SinkCall t) :=
  Fanout.remaining (cfg.sink i j) (cfg.levelOf raw.metadata) ⟨i, j, cfg.logRecord raw, 0⟩
    (cfg.logger raw.loggerPtr).sinks

/-- The calls for thread `i` that the fan-out under way has still to make. -/
def Worker.toCome (cfg : Config t) (i : ℕ) : Worker t → List (SinkCall t)
  | .fanout _ _ _ f sinks =>
      if f.thread = i then
        f.remaining (cfg.sink f.thread f.index) (cfg.levelOf f.record.metadata) sinks
      else []
  | _ => []

/-- The call returned an error. -/
def SinkCall.failed (m : Method) (c : SinkCall t) : Bool := c.method = m && c.verdict = .err ()

def SinkCall.panicked (c : SinkCall t) : Bool := c.verdict = .panic

/-- The error counters count the failed calls of a round. -/
theorem visitSink_counts (script : SinkScript) (level : LogLevel) :
    let v := visitSink script level
    v.writeErrors = v.steps.countP (fun p => p.1 = .write && p.2 = .err ()) ∧
      v.flushErrors = v.steps.countP (fun p => p.1 = .flush && p.2 = .err ()) ∧
      v.panicked.toNat = v.steps.countP (fun p => p.2 = .panic) := by
  unfold visitSink
  split
  · decide
  · split
    · decide
    · split
      · split <;> decide
      · decide
      · decide

theorem Fanout.thread_of_mem_calls {f : Fanout t} {sink : ℕ} {v : Visit} {c : SinkCall t}
    (h : c ∈ f.calls sink v) : c.thread = f.thread := by
  obtain ⟨p, -, rfl⟩ := List.mem_map.mp h
  rfl

theorem Fanout.countP_calls (f : Fanout t) (sink : ℕ) (v : Visit) (p : SinkCall t → Bool) :
    (f.calls sink v).countP p = v.steps.countP fun x =>
      p ⟨sink, f.thread, f.index, f.position, x.1, x.2, f.record⟩ := by
  rw [Fanout.calls, List.countP_map]
  rfl

end Insomnilog.Backend

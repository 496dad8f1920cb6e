import Insomnilog.Backend.Shutdown

/-! What has become of every log call that passed its level check. -/
namespace Insomnilog.Backend
open ByteStore Wire Queue Framing Frontend

variable {t : Target} {cfg : Config t} {level : t.Ptr → LogLevel} {k i : ℕ} {s : State t}
  {th : Thread t}

/-- Records taken off the queue of thread `i` that were not given to the sinks. -/
def State.lostOf (s : State t) (i : ℕ) (th : Thread t) : ℕ :=
  (List.range th.results.length).countP fun j => (i, j) ∉ s.fanned

def State.lost (s : State t) : ℕ := (s.threads.zipIdx.map fun p => s.lostOf p.2 p.1).sum

/-- Each call that passed the level check was rejected or committed, and a committed
record is unread in a registered queue, or taken and given to the sinks at most once. -/
structure Accounted (s : State t) (i : ℕ) (th : Thread t) : Prop where
  passed : th.passed = th.rejected + th.committed.length
  taken_le : th.results.length ≤ th.committed.length
  taken : ∀ j, j < th.results.length → s.fanned.count (i, j) ≤ 1
  unread : ∀ j, th.results.length ≤ j → j < th.committed.length →
    i ∈ s.consumers ∧ s.fanned.count (i, j) = 0

/-- Beyond the failures of the sinks and the rejected calls, the counters of the shutdown
report count each lost record once. -/
structure State.Conserved (s : State t) : Prop where
  threads : ∀ (i : ℕ) (th : Thread t), s.threads[i]? = some th → Accounted s i th
  counted : ∃ w f p d, s.writeErrors = s.calls.countP (SinkCall.failed .write) + w ∧
    s.flushErrors = s.calls.countP (SinkCall.failed .flush) + f ∧
    s.panicCount = s.calls.countP SinkCall.panicked + p ∧
    s.droppedRecords = s.rejected + d ∧ w + f + p + d = s.lost

theorem lost_eq_zero_iff : s.lost = 0 ↔ ∀ (i : ℕ) (th : Thread t), s.threads[i]? = some th →
    ∀ j, j < th.results.length → (i, j) ∈ s.fanned := by
  have hlost (i : ℕ) (th : Thread t) : s.lostOf i th = 0 ↔
      ∀ j, j < th.results.length → (i, j) ∈ s.fanned := by
    simp [State.lostOf, List.countP_eq_zero]
  rw [State.lost, List.sum_eq_zero_iff_forall_eq_nat]
  constructor
  · intro h i th hi
    have hmem : (th, i) ∈ s.threads.zipIdx := List.mk_mem_zipIdx_iff_getElem?.mpr hi
    exact (hlost i th).mp (h _ (List.mem_map.mpr ⟨_, hmem, rfl⟩))
  · intro h n hn
    obtain ⟨⟨th, i⟩, hmem, rfl⟩ := List.mem_map.mp hn
    exact (hlost i th).mpr (h i th (List.mk_mem_zipIdx_iff_getElem?.mp hmem))

namespace BackendInv

theorem accounted (h : BackendInv cfg k s) (hi : s.threads[i]? = some th)
    (hidle : th.phase = .idle) : Accounted s i th := by
  have hf := h.threads i th hi
  have hpassed := hf.inv.passed
  rw [hidle] at hpassed
  refine ⟨hpassed, hf.inv.taken_le, fun j _ => ?_, fun j hj hlt => ⟨?_, ?_⟩⟩
  · rw [h.count_fanned hi]
    exact Bool.toNat_le _
  · by_cases hr : th.registered = true
    · refine (hf.registered hr).resolve_right fun hfin => ?_
      have := hfin.2
      omega
    · obtain ⟨hnone, -⟩ := hf.inv.unregistered (by simpa using hr)
      simp [hnone] at hlt
  · rw [h.count_fanned hi, List.getElem?_eq_none hj]
    rfl

/-- A taken record was given to the sinks exactly when its decoders succeed. -/
theorem mem_fanned_iff (h : BackendInv cfg k s) {j : ℕ} {e : Entry t}
    (hi : s.threads[i]? = some th) (he : th.committed[j]? = some e) (hj : j < th.results.length) :
    (i, j) ∈ s.fanned ↔ DecodersOk (cfg.decoders i j) e.record.args := by
  rw [← List.count_pos_iff, (h.processed hi he hj).fanned, ← Record.decoded_ok_iff]
  cases e.record.decoded (cfg.decoders i j) <;> simp [Outcome.isOk]

end BackendInv

/-- When no log call is under way, all calls are accounted for exactly when every record
taken so far has decoders that succeed. -/
theorem conserved_iff (hs : (system cfg level).Reachable s)
    (hidle : ∀ (i : ℕ) (th : Thread t), s.threads[i]? = some th → th.phase = .idle) :
    s.Conserved ↔ ∀ i j e, (s.At i fun th => th.committed[j]? = some e ∧ j < th.results.length) →
      DecodersOk (cfg.decoders i j) e.record.args := by
  obtain ⟨k, h⟩ := backend_invariant hs
  have hlost : s.Conserved ↔ s.lost = 0 := by
    constructor
    · rintro ⟨-, w, f, p, d, hw, hf, hp, hd, hsum⟩
      have := h.writeErrors
      have := h.flushErrors
      have := h.panicCount
      have := h.dropped
      omega
    · intro hzero
      exact ⟨fun i th hi => h.accounted hi (hidle i th hi), 0, 0, 0, 0, h.writeErrors,
        h.flushErrors, h.panicCount, h.dropped, hzero.symm⟩
  rw [hlost, lost_eq_zero_iff]
  constructor
  · rintro hall i j e ⟨th, hi, he, hj⟩
    exact (h.mem_fanned_iff hi he hj).mp (hall i th hi j hj)
  · intro hall i th hi j hj
    have hlt : j < th.committed.length := hj.trans_le (h.threads i th hi).inv.taken_le
    have he := List.getElem?_eq_getElem hlt
    exact (h.mem_fanned_iff hi he hj).mpr (hall i j _ ⟨th, hi, he, hj⟩)

/-- A record that decodes and one that fails to, both taken. -/
theorem conserved_iff_failing_decoder :
    ∃ s, (smallSystem fun d => if d = 1 then .ok "one" else .err ()).run (pairRun 2 23) = some s ∧
      (s.Conserved ↔ ∀ i j e,
        (s.At i fun th => th.committed[j]? = some e ∧ j < th.results.length) →
        DecodersOk ((smallConfig fun d => if d = 1 then .ok "one" else .err ()).decoders i j)
          e.record.args) := by
  have hrun : ((smallSystem fun d => if d = 1 then .ok "one" else .err ()).run (pairRun 2 23)).map
      (fun s => s.threads.map Thread.phase) = some [.idle, .idle] := by decide +kernel
  obtain ⟨s, hs, hphases⟩ := Option.map_eq_some_iff.mp hrun
  refine ⟨s, hs, conserved_iff ⟨_, hs⟩ fun i th hi => ?_⟩
  have hmem : th.phase ∈ s.threads.map Thread.phase := List.mem_map_of_mem (List.mem_of_getElem? hi)
  simpa [hphases] using hmem

/-- The record that fails to decode is consumed, and no counter shows it. -/
theorem failed_record_not_counted :
    ∃ s, (smallSystem fun d => if d = 1 then .ok "one" else .err ()).run (pairRun 2 23) = some s ∧
      (∀ th ∈ s.threads, th.phase = .idle) ∧ s.lost = 1 ∧
      (s.writeErrors, s.flushErrors, s.panicCount, s.droppedRecords) = (0, 0, 0, 0) ∧
      ¬ s.Conserved := by
  have hrun : ((smallSystem fun d => if d = 1 then .ok "one" else .err ()).run (pairRun 2 23)).map
      (fun s => (s.threads.map Thread.phase, s.lost,
        s.writeErrors, s.flushErrors, s.panicCount, s.droppedRecords)) =
      some ([.idle, .idle], 1, 0, 0, 0, 0) := by decide +kernel
  obtain ⟨s, hs, hvalues⟩ := Option.map_eq_some_iff.mp hrun
  simp only [Prod.mk.injEq] at hvalues
  obtain ⟨hphases, hlost, hw, hf, hp, hd⟩ := hvalues
  refine ⟨s, hs, fun th hth => ?_, hlost, by rw [hw, hf, hp, hd], ?_⟩
  · have hmem : th.phase ∈ s.threads.map Thread.phase := List.mem_map_of_mem hth
    simpa [hphases] using hmem
  · rintro ⟨-, w, f, p, d, hw', hf', hp', hd', hsum⟩
    omega

end Insomnilog.Backend

import Insomnilog.Framing.Invariant
import Insomnilog.Frontend.LogCall

/-! Framing never slips: whatever the interleaving of log calls with `try_read_one`,
the worker reads whole records, in order, and sees nothing only when nothing is there. -/
namespace Insomnilog.Framing
open ByteStore Wire Queue Frontend

variable {t : Target} {dec : ℕ → ℕ → Decoders t} {k : ℕ} {s s' : State t}

/-- The record a log call writes when each of its expressions has one value. -/
def LogCall.logged {σ : Type} (c : LogCall σ t) (s : σ) (hfit : SizesFit (c.evaluations s)) :
    LoggedRecord t where
  timestampNs := c.timestampNs
  metadataPtr := c.metadataPtr
  loggerPtr := c.loggerPtr
  args := (c.evaluations s).map Evaluations.summed
  argsSize_lt := (hfit Evaluations.summed (by simp)).1
  size_lt := (hfit Evaluations.summed (by simp)).2

/-- `__log!` with stable arguments asks for exactly the size of its record and stores
exactly its bytes. -/
theorem expand_stable {σ : Type} (c : LogCall σ t) (s : σ) (hfit : SizesFit (c.evaluations s))
    (hstable : ∀ e ∈ c.evaluations s, e.sized = e.summed ∧ e.stored = e.summed) :
    ∃ x, c.expand s = .ok x ∧ x.args.panicked = false ∧
      x.totalSize = (LogCall.logged c s hfit).size ∧
      x.stores = (LogCall.logged c s hfit).stores := by
  obtain ⟨x, hx, hannounced, htotal, hheader, hp, hst⟩ := expand_eq c s hfit
  have henc : x.encodedArgsSize =
      BitVec.ofNat 32 (argsSize ((c.evaluations s).map Evaluations.summed)) := by
    rw [← hannounced, BitVec.ofNat_toNat, BitVec.setWidth_eq]
  have hstored : (c.evaluations s).map Evaluations.stored =
      (c.evaluations s).map Evaluations.summed :=
    List.map_congr_left fun e he => (hstable e he).2
  refine ⟨x, hx, hp, by rw [htotal, hannounced]; rfl, ?_⟩
  rw [Expansion.stores, hheader, henc, hst, placeArgs_eq_encodeArgs, List.map_map]
  · exact congrArg (_ ++ encodeArgs _ ·) hstored
  · rw [← List.map_dropLast]
    intro p hp
    obtain ⟨e, he, rfl⟩ := List.mem_map.mp hp
    obtain ⟨h₁, h₂⟩ := hstable e (List.dropLast_subset _ he)
    rw [h₁, h₂]

/-- One step of either side keeps the invariant. -/
theorem FramingInv.step (hdec : ∀ k j decoder payload, ∃ text, dec k j decoder payload = .ok text)
    (h : FramingInv dec k s) {e : Event t} (hs : Framing.step dec s e = some s') :
    FramingInv dec k s' := by
  cases e with
  | log r =>
    simp only [Framing.step] at hs
    split at hs <;> cases hs
    exact h.log (by assumption) r
  | store =>
    simp only [Framing.step] at hs
    split at hs <;> cases hs
    exact h.store (by assumption)
  | commit =>
    simp only [Framing.step] at hs
    split at hs <;> cases hs
    exact h.commit (by assumption)
  | available =>
    simp only [Framing.step] at hs
    split at hs <;> cases hs
    exact h.available
  | peek =>
    simp only [Framing.step] at hs
    split at hs <;> cases hs
    exact h.peek (by assumption)
  | observe =>
    simp only [Framing.step] at hs
    split at hs
    · split at hs
      · obtain ⟨b, hb, rfl⟩ := Option.map_eq_some_iff.mp hs
        exact h.observeHeader (by assumption) (by assumption) hb
      · cases hs
    · split at hs
      · obtain ⟨b, hb, rfl⟩ := Option.map_eq_some_iff.mp hs
        exact h.observeBody (by assumption) (by assumption) hb
      · cases hs
    · cases hs
  | measure =>
    simp only [Framing.step] at hs
    split at hs
    · split at hs <;> cases hs
      exact h.measure (by assumption) (by assumption)
    · cases hs
  | read =>
    simp only [Framing.step] at hs
    split at hs <;> cases hs
    exact h.read (by assumption)
  | decode =>
    simp only [Framing.step] at hs
    split at hs
    · split at hs <;> cases hs
      exact h.decode hdec (by assumption) (by assumption)
    · cases hs
  | advance =>
    simp only [Framing.step] at hs
    split at hs <;> cases hs
    exact h.advance hdec (by assumption)

theorem init_inv (dec : ℕ → ℕ → Decoders t) {capacity : BitVec t.bits} {q : Spsc t.bits}
    (hnew : new t.checks capacity = some q) (hfit : 2 * roundUp capacity.toNat < 2 ^ t.bits) :
    ∃ k, FramingInv dec k (system dec q).init := by
  obtain ⟨k, -, hq⟩ := RecordQueue.new hnew hfit
  exact ⟨k, hq, trivial, trivial, by simp [system], by simp [system, State.results]⟩

/-- Unbounded stream position at which record `i` starts. -/
def boundary (written : List (LoggedRecord t)) (i : ℕ) : ℕ :=
  ((written.take i).map fun r => r.size).sum

/-- The values returned so far, without the `None`s. -/
def State.values (s : State t) : List (RawDecodedRecord t) :=
  s.calls.filterMap fun c => c.exit.value

/-- The worker has returned a value for each of the oldest records, in order, and
`None` only when there was none to return; it stands on a record boundary, has
measured the record before it as it was written, and did not panic. -/
structure InStep (dec : ℕ → ℕ → Decoders t) (s : State t) : Prop where
  calls : ∀ c ∈ s.calls, c.exit ≠ .early ∧ (c.exit.value = none ↔ c.unread = 0)
  taken : s.taken = s.values.length
  taken_le : s.taken ≤ s.written.length
  values : ∀ (i : ℕ) (d : RawDecodedRecord t), s.values[i]? = some d →
    ∃ r : LoggedRecord t, s.written[i]? = some r ∧ r.decoded (dec i) = .ok d
  read : s.q.consumer.read = BitVec.ofNat t.bits (boundary s.written s.taken)
  readPos : s.q.inner.readPos = BitVec.ofNat t.bits (boundary s.written s.taken)
  measured : ∀ totalLen unread, s.reader = .measured totalLen unread →
    ∃ r, s.written[s.taken]? = some r ∧ totalLen = r.size
  alive : s.reader ≠ .panicked

/-- All results are values when all calls end well. -/
theorem results_eq_values {calls : List (Call t)} (h : ∀ c ∈ calls, c.Ok) :
    (calls.filterMap fun c => c.exit.result) =
      (calls.filterMap fun c => c.exit.value).map Outcome.ok := by
  induction calls with
  | nil => rfl
  | cons c calls ih =>
    have hrest := ih fun e he => h e (List.mem_cons_of_mem _ he)
    rcases h c List.mem_cons_self with ⟨hshort, -⟩ | ⟨-, d, hread⟩
    · simp [hshort, hrest]
    · simp [hread, hrest]

namespace FramingInv

theorem start_eq_boundary (h : FramingInv dec k s) (i : ℕ) :
    start s.chunks i = boundary s.written i := by
  have hlen : s.chunks.map Chunk.len = s.written.map fun r => r.size := by
    have := congrArg (List.map List.length) h.queue.framed
    simp only [List.map_map, Function.comp_def, Record.bytes_length] at this
    exact this
  rw [start, boundary, List.map_take, List.map_take, hlen]

theorem inStep (h : FramingInv dec k s) : InStep dec s where
  calls c hc := by
    rcases h.calls c hc with ⟨hshort, hzero⟩ | ⟨hpos, d, hread⟩
    · simp [hshort, hzero]
    · simp [hread, Nat.pos_iff_ne_zero.mp hpos]
  taken := by
    rw [State.taken, State.results, results_eq_values h.calls, List.length_map, State.values]
  taken_le := h.queue.taken_le
  values i d hd := by
    have hres : s.results[i]? = some (.ok d) := by
      rw [State.results, results_eq_values h.calls, List.getElem?_map]
      exact congrArg (Option.map _) hd
    obtain ⟨r, hr, hd'⟩ := h.results i _ hres
    exact ⟨r, hr, hd'.symm⟩
  read := by
    rw [← h.start_eq_boundary]
    exact h.queue.queue.read
  readPos := by
    rw [← h.start_eq_boundary]
    exact h.queue.queue.readPos
  measured totalLen unread hr := by
    have hreader := h.reader
    simp only [ReaderOk, hr] at hreader
    obtain ⟨-, r, off, hn, hlen⟩ := hreader
    exact ⟨r, hn.record, hlen⟩
  alive hr := by
    have hreader := h.reader
    simp only [ReaderOk, hr] at hreader

end FramingInv

/-- In every interleaving of log calls with calls of `try_read_one`, each call returns
`None` exactly when nothing was unread and otherwise the oldest unread record. A record that
is logged is what `__log!` asks for and stores when its arguments are stable. -/
theorem framing_in_step {capacity : BitVec t.bits} {q : Spsc t.bits}
    (hnew : new t.checks capacity = some q) (hfit : 2 * roundUp capacity.toNat < 2 ^ t.bits)
    (hdec : ∀ k j decoder payload, ∃ text, dec k j decoder payload = .ok text)
    (hs : (system dec q).Reachable s) :
    InStep dec s ∧
      ∀ (σ : Type) (c : LogCall σ t) (u : σ) (hsizes : SizesFit (c.evaluations u)),
        (∀ e ∈ c.evaluations u, e.sized = e.summed ∧ e.stored = e.summed) →
        ∃ x, c.expand u = .ok x ∧ x.args.panicked = false ∧
          x.totalSize = (LogCall.logged c u hsizes).size ∧
          x.stores = (LogCall.logged c u hsizes).stores := by
  obtain ⟨k, hi⟩ := init_inv dec hnew hfit
  have hinv : FramingInv dec k s := hs.invariant hi fun _ _ _ _ h hstep => h.step hdec hstep
  exact ⟨hinv.inStep, fun _ c u hsizes => expand_stable c u hsizes⟩

abbrev word32 : Target := ⟨.w32, .little, true⟩

/-- One record with a single byte argument. -/
def byteRecord : LoggedRecord word32 where
  timestampNs := 9
  metadataPtr := 0x1000
  loggerPtr := 0x2000
  args := [.u8 7]
  argsSize_lt := by decide
  size_lt := by decide

/-- One with an argument of four bytes. -/
def wordRecord : LoggedRecord word32 where
  timestampNs := 11
  metadataPtr := 0x1000
  loggerPtr := 0x2000
  args := [.u32 70000]
  argsSize_lt := by decide
  size_lt := by decide

/-- Reads one record of `n` bytes. -/
def readRun (n : ℕ) : List (Event word32) :=
  List.flatten [[.available, .peek], .replicate 24 .observe, [.measure, .read],
    .replicate n .observe, [.decode, .advance]]

/-- The third write finds the queue full. Both records are read, the second one across the
boundary between them, and then there is nothing more. -/
def boundaryRun : List (Event word32) :=
  List.flatten [[.log byteRecord], .replicate 26 .store, [.commit, .log wordRecord],
    .replicate 29 .store, [.commit, .log byteRecord], readRun 26, readRun 29, [.available]]

theorem framing_in_step_boundary :
    ∃ q, new true (64 : BitVec 32) = some q ∧
      ∃ s, (system (t := word32) (fun _ _ _ _ => .ok "") q).run boundaryRun = some s ∧
        s.written = [byteRecord, wordRecord] ∧
        s.values = [⟨9, 0x2000, 0x1000, [.u8 7]⟩, ⟨11, 0x2000, 0x1000, [.u32 70000]⟩] ∧
        InStep (fun _ _ _ _ => .ok "") s := by
  have hrun : (new true (64 : BitVec 32)).bind (fun q =>
      ((system (t := word32) (fun _ _ _ _ => .ok "") q).run boundaryRun).map
        fun s => (s.written, s.values)) = some ([byteRecord, wordRecord],
          [⟨9, 0x2000, 0x1000, [.u8 7]⟩, ⟨11, 0x2000, 0x1000, [.u32 70000]⟩]) := by
    decide +kernel
  obtain ⟨q, hnew, hrun⟩ := Option.bind_eq_some_iff.mp hrun
  obtain ⟨s, hs, houtcome⟩ := Option.map_eq_some_iff.mp hrun
  obtain ⟨hwritten, hvalues⟩ := Prod.mk.inj houtcome
  exact ⟨q, hnew, s, hs, hwritten, hvalues, (framing_in_step hnew (by decide +kernel)
    (fun _ _ _ _ => ⟨"", rfl⟩) ⟨_, hs⟩).1⟩

end Insomnilog.Framing

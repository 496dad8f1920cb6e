import Insomnilog.Framing.System

/-! The queue's chunks are the written records, one each, and the worker's positions
are where a record starts. Every step of either side keeps this. -/
namespace Insomnilog.Framing
open ByteStore Wire Queue

variable {t : Target} {dec : ℕ → ℕ → Decoders t} {k : ℕ} {s s' : State t} {r : LoggedRecord t}

/-- Bytes beyond the committed ones that the writer's closure holds. -/
def Writer.reserved : Writer t → ℕ
  | .idle => 0
  | .writing _ r _ => r.size

/-- The stores still to come complete the record inside the reserved slice. -/
def WriterOk (k : ℕ) (s : State t) : Prop :=
  match s.writer with
  | .idle => True
  | .writing off r pending => off = total s.chunks % 2 ^ k ∧
      applyStores (slice s.q.inner.buf off r.size) pending = r.bytes ∧
      ∀ p ∈ pending, p.1 < r.size

/-- `r` is the oldest unread record, and its bytes start at `off`. -/
abbrev Next (s : State t) (r : LoggedRecord t) (off : ℕ) : Prop :=
  Placed s.written s.chunks s.taken r off

def ReaderOk (dec : ℕ → ℕ → Decoders t) (s : State t) : Prop :=
  match s.reader with
  | .idle => True
  | .checked avail unread => 0 < unread ∧ ∃ r off, Next s r off ∧ r.size ≤ avail.toNat
  | .header off seen avail unread => 0 < unread ∧ ∃ r, Next s r off ∧ r.size ≤ avail.toNat ∧
      seen = r.bytes.take seen.length
  | .measured totalLen unread => 0 < unread ∧ ∃ r off, Next s r off ∧ totalLen = r.size
  | .body off totalLen seen unread => 0 < unread ∧ ∃ r, Next s r off ∧ totalLen = r.size ∧
      seen = r.bytes.take seen.length ∧
      Ahead s.chunks s.taken s.q.consumer
  | .decoded result totalLen unread => 0 < unread ∧ ∃ (r : LoggedRecord t) (off : ℕ),
      Next s r off ∧ totalLen = r.size ∧ result = r.decoded (dec s.taken) ∧
      Ahead s.chunks s.taken s.q.consumer
  | .panicked => False

/-- A finished call found nothing and returned `None`, or found a record and decoded it. -/
def Call.Ok (c : Call t) : Prop :=
  (c.exit = .short ∧ c.unread = 0) ∨ (0 < c.unread ∧ ∃ d, c.exit = .read (.ok d))

structure FramingInv (dec : ℕ → ℕ → Decoders t) (k : ℕ) (s : State t) : Prop where
  queue : RecordQueue k s.q s.chunks s.written s.taken s.writer.reserved
  writer : WriterOk k s
  reader : ReaderOk dec s
  calls : ∀ c ∈ s.calls, c.Ok
  results : ∀ i d, s.results[i]? = some d →
    ∃ r : LoggedRecord t, s.written[i]? = some r ∧ d = r.decoded (dec i)

theorem results_finish (s : State t) (unread : ℕ) (exit : Exit t) :
    (s.finish unread exit).results = s.results ++ exit.result.toList := by
  cases exit <;> simp [State.finish, State.results, Exit.result]

theorem taken_finish (s : State t) (unread : ℕ) (exit : Exit t) :
    (s.finish unread exit).taken = s.taken + exit.result.toList.length := by
  rw [State.taken, results_finish, List.length_append, State.taken]

/-- What a step of the writer leaves alone. -/
structure WriterStep (s s' : State t) : Prop where
  reader : s'.reader = s.reader
  consumer : s'.q.consumer = s.q.consumer
  calls : s'.calls = s.calls
  written : s.written <+: s'.written
  chunks : s.chunks <+: s'.chunks

theorem WriterStep.results (h : WriterStep s s') : s'.results = s.results := by
  rw [State.results, h.calls, State.results]

theorem WriterStep.taken (h : WriterStep s s') : s'.taken = s.taken := by
  rw [State.taken, h.results, State.taken]

theorem WriterStep.next {off : ℕ} (hs : WriterStep s s') (h : Next s r off) : Next s' r off := by
  rw [Next, hs.taken]
  exact h.mono hs.written hs.chunks

theorem WriterStep.ahead (hs : WriterStep s s') (h : Ahead s.chunks s.taken s.q.consumer) :
    Ahead s'.chunks s'.taken s'.q.consumer := by
  rw [hs.taken, hs.consumer]
  exact h.mono hs.chunks

theorem ReaderOk.mono (h : ReaderOk dec s) (hs : WriterStep s s') : ReaderOk dec s' := by
  unfold ReaderOk at h ⊢
  rw [hs.reader]
  cases hr : s.reader with
  | idle => trivial
  | checked avail unread =>
    simp only [hr] at h
    obtain ⟨hu, r, off, hn, ha⟩ := h
    exact ⟨hu, r, off, hs.next hn, ha⟩
  | header off seen avail unread =>
    simp only [hr] at h
    obtain ⟨hu, r, hn, ha, hseen⟩ := h
    exact ⟨hu, r, hs.next hn, ha, hseen⟩
  | measured totalLen unread =>
    simp only [hr] at h
    obtain ⟨hu, r, off, hn, hlen⟩ := h
    exact ⟨hu, r, off, hs.next hn, hlen⟩
  | body off totalLen seen unread =>
    simp only [hr] at h
    obtain ⟨hu, r, hn, hlen, hseen, ha⟩ := h
    exact ⟨hu, r, hs.next hn, hlen, hseen, hs.ahead ha⟩
  | decoded result totalLen unread =>
    simp only [hr] at h
    obtain ⟨hu, r, off, hn, hlen, hres, ha⟩ := h
    exact ⟨hu, r, off, hs.next hn, hlen, by rw [hs.taken]; exact hres, hs.ahead ha⟩
  | panicked => simp only [hr] at h

namespace FramingInv

/-- A step of the writer keeps the invariant when it keeps the queue's and its own part. -/
theorem writerStep (h : FramingInv dec k s) (hs : WriterStep s s')
    (hq : RecordQueue k s'.q s'.chunks s'.written s.taken s'.writer.reserved)
    (hw : WriterOk k s') :
    FramingInv dec k s' := by
  refine ⟨by rw [hs.taken]; exact hq, hw, h.reader.mono hs, by rw [hs.calls]; exact h.calls,
    fun i d hd => ?_⟩
  rw [hs.results] at hd
  obtain ⟨r, hr, hd'⟩ := h.results i d hd
  obtain ⟨ws, hws⟩ := hs.written
  refine ⟨r, ?_, hd'⟩
  rw [← hws, List.getElem?_append_left (List.getElem?_eq_some_iff.mp hr).choose]
  exact hr

theorem log (h : FramingInv dec k s) (hw : s.writer = .idle) (r : LoggedRecord t) :
    FramingInv dec k (s.log r) := by
  have hq := h.queue
  rw [hw] at hq
  unfold State.log
  split
  next p hr =>
    exact h.writerStep ⟨rfl, rfl, rfl, List.prefix_rfl, List.prefix_rfl⟩
      (hw ▸ hq.tryReserve_none hr) (by simp only [WriterOk, hw])
  next off p hr =>
    obtain ⟨hoff, hq'⟩ := hq.tryReserve_some hr
    refine h.writerStep ⟨rfl, rfl, rfl, List.prefix_rfl, List.prefix_rfl⟩ hq'
      ⟨hoff, ?_, fun p hp => ?_⟩
    · apply Record.applyStores_stores
      rw [hoff]
      exact slice_length_of_le hq'.queue.reserved_fits
    · rw [Record.stores_eq] at hp
      have := lt_of_mem_storesAt hp
      rw [Record.bytes_length] at this
      omega

theorem store (h : FramingInv dec k s) {off a : ℕ} {b : UInt8} {pending : Stores}
    (hw : s.writer = .writing off r ((a, b) :: pending)) :
    FramingInv dec k { s with
      q := { s.q with inner := { s.q.inner with buf := s.q.inner.buf.set (off + a) b } }
      writer := .writing off r pending } := by
  have hwr := h.writer
  have hq := h.queue
  simp only [WriterOk, hw] at hwr
  rw [hw] at hq
  obtain ⟨hoff, hbytes, hlt⟩ := hwr
  refine h.writerStep ⟨rfl, rfl, rfl, List.prefix_rfl, List.prefix_rfl⟩ ⟨?_, hq.framed⟩
    ⟨hoff, ?_, fun p hp => hlt p (List.mem_cons_of_mem _ hp)⟩
  · rw [hoff]
    exact hq.queue.store (hlt (a, b) List.mem_cons_self) b
  · rw [slice_set_inside]
    exact hbytes

theorem commit (h : FramingInv dec k s) {off : ℕ} (hw : s.writer = .writing off r []) :
    FramingInv dec k (s.commit off r) := by
  have hwr := h.writer
  have hq := h.queue
  simp only [WriterOk, hw] at hwr
  rw [hw] at hq
  obtain ⟨rfl, hbytes, -⟩ := hwr
  have hslice : slice s.q.inner.buf (total s.chunks % 2 ^ k) r.size = r.bytes := hbytes
  have hq' := hq.commit hslice
  rw [← hslice] at hq'
  exact h.writerStep ⟨rfl, rfl, rfl, List.prefix_append _ _, List.prefix_append _ _⟩ hq' trivial

theorem available (h : FramingInv dec k s) : FramingInv dec k s.available := by
  cases ha : Queue.available s.q.inner s.q.consumer with
  | mk avail c =>
    obtain ⟨hq, hcases⟩ := h.queue.available ha
    have hpos := SIZE_pos t
    simp only [State.available, ha]
    split_ifs with hshort
    · refine ⟨by rw [taken_finish]; exact hq, h.writer, trivial, fun e he => ?_, ?_⟩
      · rcases List.mem_append.mp he with he | he
        · exact h.calls e he
        · rw [List.mem_singleton.mp he]
          rcases hcases with ⟨htaken, -⟩ | ⟨r, off, -, hle, -⟩
          · exact .inl ⟨rfl, by dsimp only; omega⟩
          · have := header_le_size r
            omega
      · rw [results_finish, Exit.result_short, Option.toList_none, List.append_nil]
        exact h.results
    · rcases hcases with ⟨-, hzero⟩ | ⟨r, off, hn, hle, -⟩
      · omega
      · have hlt := (List.getElem?_eq_some_iff.mp hn.record).choose
        exact ⟨hq, h.writer, ⟨Nat.sub_pos_of_lt hlt, r, off, hn, hle⟩, h.calls, h.results⟩

/-- `peek` and `read` take their slice from the first byte of the oldest unread record. -/
theorem acquire_eq (h : FramingInv dec k s) {off len : ℕ} (hn : Next s r off)
    (hlen : len ≤ r.size) (hold : ℕ → Reader t) : ∃ c,
      s.acquire len hold = { s with q := { s.q with consumer := c }, reader := hold off } ∧
      RecordQueue k { s.q with consumer := c } s.chunks s.written s.taken s.writer.reserved ∧
      Ahead s.chunks s.taken c := by
  obtain ⟨avail, c, hac, hle, hoff, hq, hahead⟩ := h.queue.acquire hn hlen
  have hpass : decide (avail.toNat < len) = false := decide_eq_false (Nat.not_lt.mpr hle)
  refine ⟨c, ?_, hq, hahead⟩
  simp only [State.acquire, hac, hpass, Bool.and_false, Bool.false_eq_true, ↓reduceIte, hoff]

theorem peek (h : FramingInv dec k s) {avail : BitVec t.bits} {unread : ℕ}
    (hr : s.reader = .checked avail unread) :
    FramingInv dec k (s.acquire (RecordHeader.SIZE t) fun off => .header off [] avail unread) := by
  have hreader := h.reader
  simp only [ReaderOk, hr] at hreader
  obtain ⟨hu, r, off, hn, hle⟩ := hreader
  obtain ⟨c, heq, hq, -⟩ :=
    h.acquire_eq hn (header_le_size r) fun off => .header off [] avail unread
  rw [heq]
  exact ⟨hq, h.writer, ⟨hu, r, hn, hle, rfl⟩, h.calls, h.results⟩

theorem read (h : FramingInv dec k s) {totalLen unread : ℕ}
    (hr : s.reader = .measured totalLen unread) :
    FramingInv dec k (s.acquire totalLen fun off => .body off totalLen [] unread) := by
  have hreader := h.reader
  simp only [ReaderOk, hr] at hreader
  obtain ⟨hu, r, off, hn, rfl⟩ := hreader
  obtain ⟨c, heq, hq, hahead⟩ := h.acquire_eq hn le_rfl fun off => .body off r.size [] unread
  rw [heq]
  exact ⟨hq, h.writer, ⟨hu, r, hn, rfl, rfl, hahead⟩, h.calls, h.results⟩

/-- The bytes of the oldest unread record are in the buffer. -/
theorem byte_eq (h : FramingInv dec k s) {off i : ℕ} (hn : Next s r off) (hi : i < r.size) :
    r.bytes[i]? = s.q.inner.buf[off + i]? := by
  rw [← h.queue.slice_eq hn, slice_getElem?, if_pos hi]

theorem take_append_byte {bytes seen : List UInt8} {b : UInt8}
    (h : seen = bytes.take seen.length) (hb : bytes[seen.length]? = some b) :
    seen ++ [b] = bytes.take (seen ++ [b]).length := by
  rw [List.length_append, List.length_singleton, List.take_add_one, hb, ← h]
  rfl

theorem observeHeader (h : FramingInv dec k s) {off : ℕ} {seen : List UInt8} {b : UInt8}
    {avail : BitVec t.bits} {unread : ℕ} (hr : s.reader = .header off seen avail unread)
    (hlt : seen.length < RecordHeader.SIZE t) (hb : s.q.inner.buf[off + seen.length]? = some b) :
    FramingInv dec k { s with reader := .header off (seen ++ [b]) avail unread } := by
  have hreader := h.reader
  simp only [ReaderOk, hr] at hreader
  obtain ⟨hu, r, hn, hle, hseen⟩ := hreader
  rw [← h.byte_eq hn (hlt.trans_le (header_le_size r))] at hb
  exact ⟨h.queue, h.writer, ⟨hu, r, hn, hle,
    take_append_byte hseen hb⟩, h.calls, h.results⟩

theorem observeBody (h : FramingInv dec k s) {off totalLen : ℕ} {seen : List UInt8} {b : UInt8}
    {unread : ℕ} (hr : s.reader = .body off totalLen seen unread)
    (hlt : seen.length < totalLen) (hb : s.q.inner.buf[off + seen.length]? = some b) :
    FramingInv dec k { s with reader := .body off totalLen (seen ++ [b]) unread } := by
  have hreader := h.reader
  simp only [ReaderOk, hr] at hreader
  obtain ⟨hu, r, hn, rfl, hseen, hahead⟩ := hreader
  rw [← h.byte_eq hn hlt] at hb
  exact ⟨h.queue, h.writer, ⟨hu, r, hn, rfl,
    take_append_byte hseen hb, hahead⟩, h.calls, h.results⟩

/-- The header announces the length the record was written with. -/
theorem measure (h : FramingInv dec k s) {off : ℕ} {seen : List UInt8} {avail : BitVec t.bits}
    {unread : ℕ} (hr : s.reader = .header off seen avail unread)
    (hlen : seen.length = RecordHeader.SIZE t) :
    FramingInv dec k (s.measure seen avail unread) := by
  have hreader := h.reader
  simp only [ReaderOk, hr] at hreader
  obtain ⟨hu, r, hn, hle, hseen⟩ := hreader
  rw [hlen, Record.bytes, List.take_left' (RecordHeader.toBytes_length _)] at hseen
  subst hseen
  simp only [State.measure, r.announces]
  rw [if_neg (by omega)]
  exact ⟨h.queue, h.writer, ⟨hu, r, off, hn, rfl⟩, h.calls, h.results⟩

theorem decode (h : FramingInv dec k s)
    (hdec : ∀ k j decoder payload, ∃ text, dec k j decoder payload = .ok text)
    {off totalLen : ℕ} {seen : List UInt8} {unread : ℕ}
    (hr : s.reader = .body off totalLen seen unread) (hlen : seen.length = totalLen) :
    FramingInv dec k (s.decode dec totalLen seen unread) := by
  have hreader := h.reader
  simp only [ReaderOk, hr] at hreader
  obtain ⟨hu, r, hn, rfl, hseen, hahead⟩ := hreader
  have hbytes : seen = r.bytes := by
    rw [hlen, ← Record.bytes_length, List.take_length] at hseen
    exact hseen
  have hdecoded := r.decodeRecord (dec s.taken)
  rw [← hbytes] at hdecoded
  obtain ⟨d, hd⟩ : ∃ d, r.decoded (dec s.taken) = .ok d :=
    Record.decoded_ok_iff.mpr fun _ _ _ => hdec s.taken _ _ _
  simp only [State.decode, hdecoded, hd]
  exact ⟨h.queue, h.writer, ⟨hu, r, off, hn, rfl, hd.symm, hahead⟩,
    h.calls, h.results⟩

theorem advance (h : FramingInv dec k s)
    (hdec : ∀ k j decoder payload, ∃ text, dec k j decoder payload = .ok text)
    {result : Decoded (RawDecodedRecord t)} {totalLen unread : ℕ}
    (hr : s.reader = .decoded result totalLen unread) :
    FramingInv dec k (s.advance result totalLen unread) := by
  have hreader := h.reader
  simp only [ReaderOk, hr] at hreader
  obtain ⟨hu, r, off, hn, rfl, rfl, hahead⟩ := hreader
  have hq := h.queue.advance hn hahead
  have hres : (s.advance (r.decoded (dec s.taken)) r.size unread).results =
      s.results ++ [r.decoded (dec s.taken)] := results_finish _ _ _
  have htaken : (s.advance (r.decoded (dec s.taken)) r.size unread).taken = s.taken + 1 :=
    taken_finish _ _ _
  refine ⟨by rw [htaken]; exact hq, h.writer, trivial, fun e he => ?_,
    fun i d hd => ?_⟩
  · rcases List.mem_append.mp he with he | he
    · exact h.calls e he
    · rw [List.mem_singleton.mp he]
      obtain ⟨d, hd⟩ : ∃ d, r.decoded (dec s.taken) = .ok d :=
        Record.decoded_ok_iff.mpr fun _ _ _ => hdec s.taken _ _ _
      exact .inr ⟨hu, d, congrArg Exit.read hd⟩
  · rw [hres] at hd
    by_cases hi : i < s.results.length
    · rw [List.getElem?_append_left hi] at hd
      exact h.results i d hd
    · have hil := (List.getElem?_eq_some_iff.mp hd).choose
      rw [List.length_append, List.length_singleton] at hil
      obtain rfl : i = s.taken := by unfold State.taken; omega
      rw [State.taken, List.getElem?_concat_length] at hd
      exact ⟨r, hn.record, (Option.some.inj hd).symm⟩

end FramingInv
end Insomnilog.Framing

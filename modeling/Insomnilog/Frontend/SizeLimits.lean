import Insomnilog.Frontend.LogCall
import Insomnilog.Queue.Bounded

/-! Sizes of a log call up to and beyond 4 GiB: the casts to `u32` between the sizes that
are reserved and the bytes that are stored. -/
namespace Insomnilog.Frontend
open ByteStore Wire Queue

variable {σ : Type} {t : Target} {w : ℕ}

inductive WriteEnd where
  | rejected
  | stored
  | unwound
  deriving DecidableEq, Repr

/-- After `log_write`: how the write ended, the thread's queue, and `dropped_records`. -/
structure Logged (w : ℕ) where
  result : WriteEnd
  q : Spsc w
  droppedRecords : ℕ

/-- `log_write` of an expanded call. Stores outside the allocation, which the code performs
on whatever is there, are left out of the queue. -/
def Expansion.logWrite (x : Expansion σ) (q : Spsc w) (droppedRecords : ℕ) : Logged w :=
  match tryReserve q.inner q.producer (BitVec.ofNat w x.totalSize) with
  | (none, p) => ⟨.rejected, { q with producer := p }, droppedRecords + 1⟩
  | (some off, p) =>
      let buf := applyStores q.inner.buf (x.stores.map fun st => (off.toNat + st.1, st.2))
      let inner := { q.inner with buf }
      if x.args.panicked then ⟨.unwound, { q with inner, producer := p }, droppedRecords⟩
      else
        let (inner, p) := commit inner p (BitVec.ofNat w x.totalSize)
        ⟨.stored, { q with inner, producer := p }, droppedRecords⟩

/-- An expression whose evaluation changes nothing. -/
def ArgExpr.Pure (e : ArgExpr σ t) : Prop := ∀ s, (e.eval s).2 = s

/-- The values of the arguments of a call. -/
def LogCall.values (c : LogCall σ t) (s : σ) : List (Arg t) := (evalOnce c.args s).1

/-- Nothing is stored, and the record is counted once. -/
structure Rejects (q : Spsc w) (droppedRecords : ℕ) (r : Logged w) : Prop where
  result : r.result = .rejected
  counted : r.droppedRecords = droppedRecords + 1
  unchanged : ∃ cachedRead, r.q = { q with producer := { q.producer with cachedRead } }

/-- The closure has stored each reserved byte once and in order, and nothing else; the
announced size and the length prefixes are the true ones, and the record fits the queue. -/
structure StoresRecord (vs : List (Arg t)) (capacity : ℕ) (x : Expansion σ) (r : Logged w) :
    Prop where
  result : r.result = .stored
  exact : x.stores.map Prod.fst = List.range x.totalSize
  announced : x.encodedArgsSize.toNat = argsSize vs
  prefixes : ∀ v ∈ vs, v.LenFits
  fits : RecordHeader.SIZE t + argsSize vs ≤ capacity

theorem storesAt_map_fst (dst : ℕ) (bytes : List UInt8) :
    (storesAt dst bytes).map Prod.fst = List.range' dst bytes.length := by
  induction bytes generalizing dst with
  | nil => rfl
  | cons b bytes ih => rw [storesAt, List.map_cons, ih, List.length_cons, List.range'_succ]

theorem evalOnce_pure {es : List (ArgExpr σ t)} (h : ∀ e ∈ es, e.Pure) (s : σ) :
    evalOnce es s = (es.map fun e => (e.eval s).1, s) := by
  induction es with
  | nil => rfl
  | cons e es ih =>
    have he := h e List.mem_cons_self s
    rw [evalOnce_cons, he, ih fun e he => h e (List.mem_cons_of_mem _ he)]
    rfl

theorem evalTwice_pure {es : List (ArgExpr σ t)} (h : ∀ e ∈ es, e.Pure) (s : σ) :
    evalTwice es s = es.map fun e => ((e.eval s).1, (e.eval s).1) := by
  induction es with
  | nil => rfl
  | cons e es ih =>
    have he := h e List.mem_cons_self s
    rw [evalTwice_cons, he, he, ih fun e he => h e (List.mem_cons_of_mem _ he)]
    rfl

/-- All evaluations of a pure argument agree. -/
theorem evaluations_pure {c : LogCall σ t} (h : ∀ e ∈ c.args, e.Pure) (s : σ) :
    c.evaluations s = (c.values s).map fun v => ⟨v, v, v⟩ := by
  rw [c.evaluations_eq_zipWith, LogCall.values, evalOnce_pure h, evalTwice_pure h,
    List.zipWith_map, List.zipWith_self, List.map_map]
  rfl

/-- The announced size is the true one modulo `2 ^ 32`, and the reserved size follows it. -/
theorem expand_sizes (c : LogCall σ t) (s : σ) (hw : t.pointer = .w64)
    (hfit : argsSize (c.values s) < 2 ^ 64) :
    ∃ x, c.expand s = .ok x ∧ x.encodedArgsSize = BitVec.ofNat 32 (argsSize (c.values s)) ∧
      x.totalSize = RecordHeader.SIZE t + argsSize (c.values s) % 2 ^ 32 ∧
      x.headerStores.length = RecordHeader.SIZE t ∧
      x.args = encodeLoop (RecordHeader.SIZE t) c.args (evalOnce c.args s).2 := by
  have hbits : 2 ^ t.bits = 2 ^ 64 := by
    rw [Target.bits, Target.ptrBytes, hw]
    rfl
  have hsize : RecordHeader.SIZE t = 32 := by
    rw [RecordHeader.SIZE, Target.ptrBytes, hw]
    rfl
  have hsum : sumSizes 0 c.args s = .ok (argsSize (c.values s), (evalOnce c.args s).2) := by
    have h := sumSizes_eq c.args 0 s (by
      rw [hbits, Nat.zero_add]
      exact hfit)
    rw [Nat.zero_add] at h
    exact h
  have hmod : (BitVec.ofNat 32 (argsSize (c.values s))).toNat = argsSize (c.values s) % 2 ^ 32 :=
    BitVec.toNat_ofNat ..
  have hadd : (t.add (RecordHeader.SIZE t) (BitVec.ofNat 32 (argsSize (c.values s))).toNat :
      Outcome Unit ℕ) = .ok (RecordHeader.SIZE t + argsSize (c.values s) % 2 ^ 32) := by
    rw [hmod]
    apply Target.add_of_lt
    have := Nat.mod_lt (argsSize (c.values s)) (Nat.two_pow_pos 32)
    omega
  refine ⟨{
    encodedArgsSize := BitVec.ofNat 32 (argsSize (c.values s))
    totalSize := RecordHeader.SIZE t + argsSize (c.values s) % 2 ^ 32
    headerStores := (RecordHeader.new c.timestampNs c.metadataPtr c.loggerPtr
      (BitVec.ofNat 32 (argsSize (c.values s)))).writeTo 0
    args := encodeLoop (RecordHeader.SIZE t) c.args (evalOnce c.args s).2 },
    ?_, rfl, rfl, ?_, rfl⟩
  · rw [LogCall.expand, hsum]
    simp only [Outcome.bind_eq, Outcome.ok_bind, hadd, Outcome.pure_eq]
  · rw [RecordHeader.writeTo, storesAt_length, RecordHeader.toBytes_length]

/-- Below 4 GiB the closure stores each byte of its reservation once. -/
theorem expand_exact {c : LogCall σ t} {s : σ} {x : Expansion σ} (hpure : ∀ e ∈ c.args, e.Pure)
    (hsmall : argsSize (c.values s) < 2 ^ 32)
    (hfit : RecordHeader.SIZE t + argsSize (c.values s) < 2 ^ t.bits) (hx : c.expand s = .ok x) :
    x.encodedArgsSize.toNat = argsSize (c.values s) ∧ x.args.panicked = false ∧
      x.totalSize = RecordHeader.SIZE t + argsSize (c.values s) ∧
      x.stores.map Prod.fst = List.range x.totalSize := by
  have heval := evaluations_pure hpure s
  have hproj (f : Evaluations t → Arg t) (hf : ∀ v, f ⟨v, v, v⟩ = v) :
      (c.evaluations s).map f = c.values s := by
    rw [heval, List.map_map]
    exact (List.map_congr_left fun v _ => hf v).trans (List.map_id _)
  have hsizes : SizesFit (c.evaluations s) := by
    intro f hf
    have hv : (c.evaluations s).map f = c.values s := by
      simp only [List.mem_cons, List.not_mem_nil, or_false] at hf
      rcases hf with rfl | rfl | rfl <;> exact hproj _ fun _ => rfl
    rw [hv]
    exact ⟨hsmall, hfit⟩
  obtain ⟨x', hx', hannounced, htotal, hheader, hp, hst⟩ := expand_eq c s hsizes
  obtain rfl : x = x' := Outcome.ok.inj (hx.symm.trans hx')
  rw [hproj _ fun _ => rfl] at hannounced
  have hargs : x.args.stores = encodeArgs (RecordHeader.SIZE t) (c.values s) := by
    rw [hst, placeArgs_eq_encodeArgs, List.map_map]
    · exact congrArg _ (hproj _ fun _ => rfl)
    · intro p hp
      obtain ⟨e, he, rfl⟩ := List.mem_map.mp (List.mem_of_mem_dropLast hp)
      rw [heval] at he
      obtain ⟨v, -, rfl⟩ := List.mem_map.mp he
      rfl
  refine ⟨hannounced, hp, by rw [htotal, hannounced], ?_⟩
  rw [Expansion.stores, hheader, hargs, encodeArgs_eq, List.map_append, storesAt_map_fst,
    storesAt_map_fst, flatMap_encoding_length, RecordHeader.toBytes_length, htotal, hannounced,
    List.range_eq_range', ← List.range'_append]
  simp

/-- A log call of any size, on the queue of its thread at any time: it is refused and
counted, or it stores exactly the record it announces, if and only if the sizes of its
arguments sum to less than 4 GiB or the sum modulo 4 GiB finds no room either. -/
theorem size_arithmetic_sound_iff (c : LogCall σ t) (s : σ) (hw : t.pointer = .w64)
    (hpure : ∀ e ∈ c.args, e.Pure) (hfit : argsSize (c.values s) < 2 ^ 64) {checks : Bool}
    {capacity : BitVec 64} {q : Spsc 64} {st : State 64} (hnew : new checks capacity = some q)
    (hcap : 2 * roundUp capacity.toNat < 2 ^ 64) (hq : (freeSystem q).Reachable st)
    (hidle : st.producer = .idle) (droppedRecords : ℕ) :
    ∃ x, c.expand s = .ok x ∧
      ((Rejects st.q droppedRecords (x.logWrite st.q droppedRecords) ∨
        StoresRecord (c.values s) (roundUp capacity.toNat) x (x.logWrite st.q droppedRecords)) ↔
      argsSize (c.values s) < 2 ^ 32 ∨ roundUp capacity.toNat - used st.q.inner <
        RecordHeader.SIZE t + argsSize (c.values s) % 2 ^ 32) := by
  have hbits : 2 ^ t.bits = 2 ^ 64 := by
    rw [Target.bits, Target.ptrBytes, hw]
    rfl
  have hsize : RecordHeader.SIZE t = 32 := by
    rw [RecordHeader.SIZE, Target.ptrBytes, hw]
    rfl
  obtain ⟨x, hx, hannounced, htotal, -, -⟩ := expand_sizes c s hw hfit
  refine ⟨x, hx, ?_⟩
  obtain ⟨k, hk, hinv⟩ := free_invariant hnew hcap hq
  have hpos := hinv.positions
  rw [hidle] at hpos
  have hmod := Nat.mod_lt (argsSize (c.values s)) (Nat.two_pow_pos 32)
  have hn : (BitVec.ofNat 64 x.totalSize).toNat = x.totalSize := by
    rw [BitVec.toNat_ofNat, Nat.mod_eq_of_lt (by omega)]
  have hcases := hpos.tryReserve_cases (BitVec.ofNat 64 x.totalSize)
  rw [hn, ← hk] at hcases
  unfold Expansion.logWrite
  rcases hcases with ⟨cachedRead, hr, hroom⟩ | ⟨off, p, hr, -, hroom⟩ <;> rw [hr]
  · constructor
    · intro _
      right
      omega
    · intro _
      left
      exact ⟨rfl, rfl, cachedRead, rfl⟩
  · constructor
    · rintro (h | h)
      · have hres := h.result
        simp only at hres
        split at hres <;> cases hres
      · left
        have hsmall := h.announced
        rw [hannounced, BitVec.toNat_ofNat] at hsmall
        omega
    · rintro (h | h)
      · right
        obtain ⟨ha, hpan, htot, hexact⟩ := expand_exact hpure h (by omega) hx
        have hprefixes : ∀ v ∈ c.values s, v.LenFits := by
          intro v hv
          exact Arg.LenFits.of_size ((argsSize_le_of_mem hv).trans_lt h)
        refine ⟨?_, hexact, ha, hprefixes, by omega⟩
        simp only [hpan, Bool.false_eq_true, ↓reduceIte]
      · omega

/-- A call with one string argument, in a build with or without checks. -/
def logText (checks : Bool) (text : String) : LogCall Unit ⟨.w64, .little, checks⟩ where
  level := .info
  metadataPtr := 0x1000
  loggerPtr := 0x2000
  timestampNs := 9
  args := [{ type := .str, eval := fun s => (.str text, s), typed := fun _ => rfl }]

theorem logText_pure (checks : Bool) (text : String) :
    ∀ e ∈ (logText checks text).args, e.Pure := by
  intro e he
  obtain rfl := List.mem_singleton.mp he
  exact fun _ => rfl

theorem logText_size (checks : Bool) (text : String) :
    argsSize ((logText checks text).values ()) = 1 + 4 + (utf8 text).length := by
  show argsSize [Arg.str text] = _
  rw [argsSize_cons, argsSize_nil, Arg.encodedSize, Nat.add_zero]

/-- A new queue of 64 bytes. -/
def smallQueue : Spsc 64 := ⟨⟨List.replicate 128 0, 64, 63, 0, 0⟩, ⟨0, 0⟩, ⟨0, 0⟩⟩

theorem smallQueue_new (checks : Bool) : new checks (64 : BitVec 64) = some smallQueue := by
  cases checks <;> rfl

theorem size_arithmetic_sound_iff_text :
    let c := logText true "ab"
    ∃ x, c.expand () = .ok x ∧
      (Rejects smallQueue 0 (x.logWrite smallQueue 0) ∨
        StoresRecord (c.values ()) 64 x (x.logWrite smallQueue 0)) := by
  intro c
  obtain ⟨x, hx, hiff⟩ := size_arithmetic_sound_iff c () rfl (logText_pure _ _) (by decide)
    (smallQueue_new true) (by decide) (.init : (freeSystem smallQueue).Reachable _) rfl 0
  exact ⟨x, hx, hiff.mpr (.inl (by decide))⟩

/-- A text of `n` bytes. -/
def longText (n : ℕ) : String := String.ofList (List.replicate n 'a')

theorem longText_length (n : ℕ) : (utf8 (longText n)).length = n := by
  have hsize (n : ℕ) : (List.replicate n 'a').utf8Encode.size = n := by
    induction n with
    | zero => rfl
    | succ n ih =>
      rw [List.replicate_succ, List.utf8Encode_cons, ByteArray.size_append, ih, Nat.add_comm]
      rfl
  rw [utf8, longText, String.toByteArray_ofList, Array.length_toList]
  exact hsize n

/-- Any string, of any length, is encoded without a panic on a 64-bit target. -/
theorem logText_stores {checks : Bool} {text : String} (hfit : (utf8 text).length < 2 ^ 63) :
    let r := encodeLoop 32 (logText checks text).args ()
    r.panicked = false ∧ r.stores.length = 1 + 4 + (utf8 text).length := by
  have hadd : ((⟨.w64, .little, checks⟩ : Target).add 32 (1 + 4 + (utf8 text).length) :
      Outcome Unit ℕ) = .ok (32 + (1 + 4 + (utf8 text).length)) := by
    apply Target.add_of_lt
    show 32 + (1 + 4 + (utf8 text).length) < 2 ^ 64
    omega
  have hloop : encodeLoop 32 (logText checks text).args () =
      ⟨(Arg.str text : Arg ⟨.w64, .little, checks⟩).encodeTo 32 ++ [], false, ()⟩ := by
    simp only [logText, encodeLoop, Arg.assertFails, Arg.encodedSize, hadd, ClosureRun.after,
      Bool.false_eq_true, ↓reduceIte]
  intro r
  rw [show r = _ from hloop, List.append_nil, Arg.encodeTo_eq]
  refine ⟨rfl, ?_⟩
  rw [storesAt_length, Arg.encoding_length, Arg.encodedSize]

/-- A string of `2 ^ 32` bytes reserves 37 bytes of a queue of 64. The write is not refused,
and the closure stores all of the record, in either kind of build. -/
theorem text_overruns {checks : Bool} {text : String} (hlen : (utf8 text).length = 2 ^ 32) :
    let c := logText checks text
    ∃ x, c.expand () = .ok x ∧ x.totalSize = 37 ∧ x.stores.length = 2 ^ 32 + 37 ∧
      (x.logWrite smallQueue 0).result = .stored ∧
      ¬ (Rejects smallQueue 0 (x.logWrite smallQueue 0) ∨
        StoresRecord (c.values ()) 64 x (x.logWrite smallQueue 0)) := by
  intro c
  have h32 : RecordHeader.SIZE ⟨.w64, .little, checks⟩ = 32 := rfl
  have hsize : argsSize (c.values ()) = 1 + 4 + 2 ^ 32 := by
    rw [logText_size, hlen]
  have hargs : (encodeLoop 32 c.args ()).panicked = false ∧
      (encodeLoop 32 c.args ()).stores.length = 1 + 4 + (utf8 text).length :=
    logText_stores (by omega)
  obtain ⟨x, hx, -, htotal, hheader, hxargs⟩ := expand_sizes c () rfl (by omega)
  rw [h32] at htotal hheader hxargs
  replace htotal : x.totalSize = 37 := by omega
  have hstores : x.stores.length = 2 ^ 32 + 37 := by
    rw [Expansion.stores, List.length_append, hheader, hxargs, hargs.2]
    omega
  have hreserve : tryReserve smallQueue.inner smallQueue.producer (BitVec.ofNat 64 x.totalSize) =
      (some 0, ⟨0, 0⟩) := by
    rw [htotal]
    rfl
  have hresult : (x.logWrite smallQueue 0).result = .stored := by
    simp only [Expansion.logWrite, hreserve, hxargs, hargs.1, Bool.false_eq_true, ↓reduceIte]
  refine ⟨x, hx, htotal, hstores, hresult, ?_⟩
  rintro (h | h)
  · have hr := h.result
    rw [hresult] at hr
    cases hr
  · have hl := congrArg List.length h.exact
    rw [List.length_map, List.length_range, hstores, htotal] at hl
    omega

theorem large_record_overruns :
    let c := logText true (longText (2 ^ 32))
    ∃ x, c.expand () = .ok x ∧ x.totalSize = 37 ∧ x.stores.length = 2 ^ 32 + 37 ∧
      (x.logWrite smallQueue 0).result = .stored ∧
      ¬ (Rejects smallQueue 0 (x.logWrite smallQueue 0) ∨
        StoresRecord (c.values ()) 64 x (x.logWrite smallQueue 0)) :=
  text_overruns (longText_length (2 ^ 32))

end Insomnilog.Frontend

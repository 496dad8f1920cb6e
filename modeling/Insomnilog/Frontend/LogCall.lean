import Insomnilog.Wire.Record

/-! The expansion of `__log!`. Each argument expression is evaluated once for the sum
of the sizes, and inside the closure once for its size and once to be encoded. -/
namespace Insomnilog.Frontend
open ByteStore Wire

inductive LogLevel where
  | trace
  | debug
  | info
  | warning
  | error
  deriving DecidableEq, Repr

/-- The discriminant, by which levels are compared. -/
def LogLevel.toNat : LogLevel → ℕ
  | trace => 10
  | debug => 20
  | info => 30
  | warning => 40
  | error => 50

instance : LE LogLevel := ⟨fun a b => a.toNat ≤ b.toNat⟩
instance : LT LogLevel := ⟨fun a b => a.toNat < b.toNat⟩
instance (a b : LogLevel) : Decidable (a ≤ b) := inferInstanceAs (Decidable (a.toNat ≤ b.toNat))
instance (a b : LogLevel) : Decidable (a < b) := inferInstanceAs (Decidable (a.toNat < b.toNat))

theorem LogLevel.not_lt {a b : LogLevel} : ¬ a < b ↔ b ≤ a := Nat.not_lt

variable {σ : Type} {t : Target}

/-- A macro argument: evaluating it may read and change the program state, its type
is fixed. -/
structure ArgExpr (σ : Type) (t : Target) where
  type : TypeTag
  eval : σ → Arg t × σ
  typed : ∀ s, (eval s).1.tag = type

/-- One call site with its logger, at one time. -/
structure LogCall (σ : Type) (t : Target) where
  level : LogLevel
  metadataPtr : t.Ptr
  loggerPtr : t.Ptr
  timestampNs : BitVec 64
  args : List (ArgExpr σ t)

/-- The sum `sum + encoded_size(&arg) + ..`. -/
def sumSizes (sum : ℕ) : List (ArgExpr σ t) → σ → Outcome Unit (ℕ × σ)
  | [], s => .ok (sum, s)
  | e :: es, s => do
      let (a, s) := e.eval s
      let sum ← t.add sum a.encodedSize
      sumSizes sum es s

/-- What a closure did: its stores, whether it panicked, and the state it left. -/
structure ClosureRun (σ : Type) where
  stores : Stores
  panicked : Bool
  state : σ

def ClosureRun.after (st : Stores) (r : ClosureRun σ) : ClosureRun σ :=
  { r with stores := st ++ r.stores }

/-- The repetition in the closure: for each argument a size, an encoding at the
running offset, and the next offset. -/
def encodeLoop (offset : ℕ) : List (ArgExpr σ t) → σ → ClosureRun σ
  | [], s => ⟨[], false, s⟩
  | e :: es, s =>
    let (sized, s) := e.eval s
    let (stored, s) := e.eval s
    if stored.assertFails then ⟨[], true, s⟩
    else
      match (t.add offset sized.encodedSize : Outcome Unit ℕ) with
      | .ok next => (encodeLoop next es s).after (stored.encodeTo offset)
      | _ => ⟨stored.encodeTo offset, true, s⟩

/-- What `__log!` computes before it calls `log_write`, and the run of its closure,
should the write be granted. -/
structure Expansion (σ : Type) where
  encodedArgsSize : BitVec 32
  totalSize : ℕ
  headerStores : Stores
  args : ClosureRun σ

def LogCall.expand (c : LogCall σ t) (s : σ) : Outcome Unit (Expansion σ) := do
  let (sum, s) ← sumSizes 0 c.args s
  let encodedArgsSize := BitVec.ofNat 32 sum
  let totalSize ← t.add (RecordHeader.SIZE t) encodedArgsSize.toNat
  let header := RecordHeader.new c.timestampNs c.metadataPtr c.loggerPtr encodedArgsSize
  pure {
    encodedArgsSize
    totalSize
    headerStores := header.writeTo 0
    args := encodeLoop (RecordHeader.SIZE t) c.args s }

/-- The whole macro, for the level its logger has at the check. -/
def LogCall.log (c : LogCall σ t) (loggerLevel : LogLevel) (s : σ) :
    Outcome Unit (Option (Expansion σ)) :=
  if loggerLevel ≤ c.level then (c.expand s).map some else .ok none

/-- All bytes the closure stores, relative to the reserved slice. -/
def Expansion.stores (x : Expansion σ) : Stores := x.headerStores ++ x.args.stores

/-- One evaluation of each expression. -/
def evalOnce : List (ArgExpr σ t) → σ → List (Arg t) × σ
  | [], s => ([], s)
  | e :: es, s =>
    let (a, s) := e.eval s
    let (as, s) := evalOnce es s
    (a :: as, s)

/-- Two evaluations of each expression, one directly after the other. -/
def evalTwice : List (ArgExpr σ t) → σ → List (Arg t × Arg t)
  | [], _ => []
  | e :: es, s =>
    let (a, s) := e.eval s
    let (b, s) := e.eval s
    (a, b) :: evalTwice es s

/-- The values one expression takes in one call, in the order of its evaluations: for
the sum, for the next offset, and to be encoded. -/
structure Evaluations (t : Target) where
  summed : Arg t
  sized : Arg t
  stored : Arg t

def LogCall.evaluations (c : LogCall σ t) (s : σ) : List (Evaluations t) :=
  let (first, s) := evalOnce c.args s
  first.zipWith (fun a p => ⟨a, p.1, p.2⟩) (evalTwice c.args s)

/-- All sizes, whatever the expressions do, sum to less than `2 ^ 32`; on a 32-bit
target the header fits on top. -/
def SizesFit (es : List (Evaluations t)) : Prop :=
  ∀ f ∈ [Evaluations.summed, Evaluations.sized, Evaluations.stored],
    argsSize (es.map f) < 2 ^ 32 ∧ RecordHeader.SIZE t + argsSize (es.map f) < 2 ^ t.bits

/-- The closure stays inside its reservation, the header announces the bytes that
follow it, and these are the encodings of one value of each expression. -/
structure Expansion.Sound (x : Expansion σ) (es : List (Evaluations t)) : Prop where
  inside : ∀ p ∈ x.stores, p.1 < x.totalSize
  announced : x.encodedArgsSize.toNat = x.args.stores.length
  stored : ∃ vs : List (Arg t),
    vs.Forall₂ (fun v (e : Evaluations t) => v = e.summed ∨ v = e.sized ∨ v = e.stored) es ∧
      x.args.stores = encodeArgs (RecordHeader.SIZE t) vs

/-- The encoded values add up to the announced size, and each but the last has the
size that its successor's offset was computed from. -/
def SizesAgree (es : List (Evaluations t)) : Prop :=
  argsSize (es.map Evaluations.stored) = argsSize (es.map Evaluations.summed) ∧
    ∀ e ∈ es.dropLast, e.sized.encodedSize = e.stored.encodedSize

/-- The stores of the loop, for given values and without overflow. -/
def placeArgs : ℕ → List (Arg t × Arg t) → Stores
  | _, [] => []
  | offset, (sized, stored) :: ps =>
      stored.encodeTo offset ++ placeArgs (offset + sized.encodedSize) ps

@[simp] theorem evalOnce_cons (e : ArgExpr σ t) (es : List (ArgExpr σ t)) (s : σ) :
    evalOnce (e :: es) s =
      ((e.eval s).1 :: (evalOnce es (e.eval s).2).1, (evalOnce es (e.eval s).2).2) := rfl

@[simp] theorem evalTwice_cons (e : ArgExpr σ t) (es : List (ArgExpr σ t)) (s : σ) :
    evalTwice (e :: es) s = ((e.eval s).1, (e.eval (e.eval s).2).1) ::
      evalTwice es (e.eval (e.eval s).2).2 := rfl

theorem sumSizes_eq (es : List (ArgExpr σ t)) (sum : ℕ) (s : σ)
    (h : sum + argsSize (evalOnce es s).1 < 2 ^ t.bits) :
    sumSizes sum es s = .ok (sum + argsSize (evalOnce es s).1, (evalOnce es s).2) := by
  induction es generalizing sum s with
  | nil => rfl
  | cons e es ih =>
    rw [evalOnce_cons, argsSize_cons] at h
    have hadd : (t.add sum (e.eval s).1.encodedSize : Outcome Unit ℕ) =
        .ok (sum + (e.eval s).1.encodedSize) := Target.add_of_lt (by omega)
    have hrest := ih (sum + (e.eval s).1.encodedSize) (e.eval s).2 (by omega)
    rw [evalOnce_cons, argsSize_cons, ← Nat.add_assoc, ← hrest]
    exact congrArg (Outcome.bind · fun sum => sumSizes sum es (e.eval s).2) hadd

theorem assertFails_eq_false {a : Arg t} (h : a.encodedSize < 2 ^ 32) : a.assertFails = false := by
  cases a with
  | custom c =>
    have hc : decide (2 ^ 32 ≤ c.payloadSize) = false :=
      decide_eq_false (Nat.not_le.mpr (Arg.LenFits.of_size h))
    rw [Arg.assertFails, hc, Bool.and_false]
  | _ => rfl

/-- One round of the loop that does not panic. -/
theorem encodeLoop_cons {e : ArgExpr σ t} {es : List (ArgExpr σ t)} {offset : ℕ} {s : σ}
    (hassert : (e.eval (e.eval s).2).1.encodedSize < 2 ^ 32)
    (hadd : offset + (e.eval s).1.encodedSize < 2 ^ t.bits) :
    encodeLoop offset (e :: es) s =
      (encodeLoop (offset + (e.eval s).1.encodedSize) es (e.eval (e.eval s).2).2).after
        ((e.eval (e.eval s).2).1.encodeTo offset) := by
  have ha := assertFails_eq_false hassert
  have hn : (t.add offset (e.eval s).1.encodedSize : Outcome Unit ℕ) =
      .ok (offset + (e.eval s).1.encodedSize) := Target.add_of_lt hadd
  rw [encodeLoop]
  simp only [ha, hn, Bool.false_eq_true, ↓reduceIte]

/-- Within the size limits the loop never panics and stores the values it evaluated. -/
theorem encodeLoop_eq (es : List (ArgExpr σ t)) (offset : ℕ) (s : σ)
    (hsized : offset + argsSize ((evalTwice es s).map Prod.fst) < 2 ^ t.bits)
    (hstored : argsSize ((evalTwice es s).map Prod.snd) < 2 ^ 32) :
    (encodeLoop offset es s).panicked = false ∧
      (encodeLoop offset es s).stores = placeArgs offset (evalTwice es s) := by
  induction es generalizing offset s with
  | nil => exact ⟨rfl, rfl⟩
  | cons e es ih =>
    rw [evalTwice_cons, List.map_cons, argsSize_cons] at hsized hstored
    dsimp only at hsized hstored
    rw [encodeLoop_cons (by omega) (by omega)]
    obtain ⟨hp, hst⟩ := ih (offset + (e.eval s).1.encodedSize) (e.eval (e.eval s).2).2
      (by omega) (by omega)
    exact ⟨hp, congrArg (_ ++ ·) hst⟩

theorem placeArgs_length (ps : List (Arg t × Arg t)) (offset : ℕ) :
    (placeArgs offset ps).length = argsSize (ps.map Prod.snd) := by
  induction ps generalizing offset with
  | nil => rfl
  | cons p ps ih =>
    simp [placeArgs, Arg.encodeTo_eq, Arg.encoding_length, ih]

/-- The first store of the loop is at its offset. -/
theorem placeArgs_head {p : Arg t × Arg t} {ps : List (Arg t × Arg t)} (offset : ℕ) :
    ∃ b rest, placeArgs offset (p :: ps) = (offset, b) :: rest := by
  refine ⟨p.2.tag.toByte, storesAt (offset + 1) p.2.body ++
    placeArgs (offset + p.1.encodedSize) ps, ?_⟩
  rw [placeArgs, Arg.encodeTo_eq, Arg.encoding, storesAt, List.cons_append]

theorem placeArgs_eq_encodeArgs {ps : List (Arg t × Arg t)}
    (h : ∀ p ∈ ps.dropLast, p.1.encodedSize = p.2.encodedSize) (offset : ℕ) :
    placeArgs offset ps = encodeArgs offset (ps.map Prod.snd) := by
  induction ps generalizing offset with
  | nil => rfl
  | cons p ps ih =>
    rw [placeArgs, List.map_cons, encodeArgs]
    cases ps with
    | nil => rfl
    | cons q ps =>
      rw [List.dropLast_cons_cons] at h
      rw [h p List.mem_cons_self, ih fun r hr => h r (List.mem_cons_of_mem _ hr)]

theorem storesAt_head {dst offset : ℕ} {b : UInt8} {rest : Stores} {bytes : List UInt8}
    (h : (offset, b) :: rest = storesAt dst bytes) : offset = dst := by
  cases bytes with
  | nil => cases h
  | cons c bytes => exact congrArg Prod.fst (List.cons.inj h).1

/-- The stores of the loop are contiguous only if the sizes agree. -/
theorem sizes_agree_of_contiguous {ps : List (Arg t × Arg t)} {offset : ℕ} {bytes : List UInt8}
    (h : placeArgs offset ps = storesAt offset bytes) :
    ∀ p ∈ ps.dropLast, p.1.encodedSize = p.2.encodedSize := by
  induction ps generalizing offset bytes with
  | nil => simp
  | cons p ps ih =>
    cases ps with
    | nil => simp
    | cons q ps =>
      rw [placeArgs, Arg.encodeTo_eq] at h
      have hlen : p.2.encoding.length ≤ bytes.length := by
        have := congrArg List.length h
        rw [List.length_append, storesAt_length, storesAt_length] at this
        omega
      rw [← List.take_append_drop p.2.encoding.length bytes, storesAt_append,
        List.length_take, Nat.min_eq_left hlen] at h
      have hrest := (List.append_inj h (by simp [hlen])).2
      obtain ⟨b, tail, hhead⟩ : ∃ b tail, placeArgs (offset + p.1.encodedSize) (q :: ps) =
          (offset + p.1.encodedSize, b) :: tail := placeArgs_head _
      have hp : p.1.encodedSize = p.2.encodedSize := by
        have := storesAt_head (hhead.symm.trans hrest)
        rw [Arg.encoding_length] at this
        omega
      rw [hp, ← Arg.encoding_length] at hrest
      rw [List.dropLast_cons_cons]
      intro r hr
      rcases List.mem_cons.mp hr with rfl | hr
      · exact hp
      · exact ih hrest r hr

theorem evalOnce_length (es : List (ArgExpr σ t)) (s : σ) :
    (evalOnce es s).1.length = es.length := by
  induction es generalizing s with
  | nil => rfl
  | cons e es ih => rw [evalOnce_cons, List.length_cons, ih, List.length_cons]

theorem evalTwice_length (es : List (ArgExpr σ t)) (s : σ) :
    (evalTwice es s).length = es.length := by
  induction es generalizing s with
  | nil => rfl
  | cons e es ih => rw [evalTwice_cons, List.length_cons, ih, List.length_cons]

namespace LogCall
variable (c : LogCall σ t) (s : σ)

/-- The two rounds of evaluations, side by side. -/
theorem evaluations_eq_zipWith : c.evaluations s =
    (evalOnce c.args s).1.zipWith (fun a p => ⟨a, p.1, p.2⟩)
      (evalTwice c.args (evalOnce c.args s).2) := rfl

theorem map_summed : (c.evaluations s).map Evaluations.summed = (evalOnce c.args s).1 := by
  rw [evaluations_eq_zipWith, List.map_zipWith]
  apply List.ext_getElem
  · simp [evalOnce_length, evalTwice_length]
  · simp

theorem map_pair : (c.evaluations s).map (fun e => (e.sized, e.stored)) =
    evalTwice c.args (evalOnce c.args s).2 := by
  rw [evaluations_eq_zipWith, List.map_zipWith]
  apply List.ext_getElem
  · simp [evalOnce_length, evalTwice_length]
  · simp

end LogCall

/-- What the macro does within the size limits: it announces the sum of the first
evaluations and stores the values of the last ones where the second ones put them. -/
theorem expand_eq (c : LogCall σ t) (s : σ) (hfit : SizesFit (c.evaluations s)) :
    ∃ x, c.expand s = .ok x ∧
      x.encodedArgsSize.toNat = argsSize ((c.evaluations s).map Evaluations.summed) ∧
      x.totalSize = RecordHeader.SIZE t + x.encodedArgsSize.toNat ∧
      x.headerStores = storesAt 0 (RecordHeader.new c.timestampNs c.metadataPtr c.loggerPtr
        x.encodedArgsSize).toBytes ∧
      x.args.panicked = false ∧
      x.args.stores = placeArgs (RecordHeader.SIZE t)
        ((c.evaluations s).map fun e => (e.sized, e.stored)) := by
  obtain ⟨hsum, hsum'⟩ := hfit Evaluations.summed (by simp)
  obtain ⟨-, hsized⟩ := hfit Evaluations.sized (by simp)
  obtain ⟨hstored, -⟩ := hfit Evaluations.stored (by simp)
  have hfst : (evalTwice c.args (evalOnce c.args s).2).map Prod.fst =
      (c.evaluations s).map Evaluations.sized := by
    rw [← c.map_pair, List.map_map]
    rfl
  have hsnd : (evalTwice c.args (evalOnce c.args s).2).map Prod.snd =
      (c.evaluations s).map Evaluations.stored := by
    rw [← c.map_pair, List.map_map]
    rfl
  rw [c.map_summed] at hsum hsum' ⊢
  have henc : (BitVec.ofNat 32 (argsSize (evalOnce c.args s).1)).toNat =
      argsSize (evalOnce c.args s).1 := by
    rw [BitVec.toNat_ofNat, Nat.mod_eq_of_lt hsum]
  have hadd : (t.add (RecordHeader.SIZE t)
      (BitVec.ofNat 32 (argsSize (evalOnce c.args s).1)).toNat : Outcome Unit ℕ) =
      .ok (RecordHeader.SIZE t + (BitVec.ofNat 32 (argsSize (evalOnce c.args s).1)).toNat) :=
    Target.add_of_lt (by rw [henc]; exact hsum')
  obtain ⟨hp, hst⟩ := encodeLoop_eq c.args (RecordHeader.SIZE t) (evalOnce c.args s).2
    (by rw [hfst]; exact hsized) (by rw [hsnd]; exact hstored)
  refine ⟨{
    encodedArgsSize := BitVec.ofNat 32 (argsSize (evalOnce c.args s).1)
    totalSize := RecordHeader.SIZE t +
      (BitVec.ofNat 32 (argsSize (evalOnce c.args s).1)).toNat
    headerStores := (RecordHeader.new c.timestampNs c.metadataPtr c.loggerPtr
      (BitVec.ofNat 32 (argsSize (evalOnce c.args s).1))).writeTo 0
    args := encodeLoop (RecordHeader.SIZE t) c.args (evalOnce c.args s).2 },
    ?_, henc, rfl, rfl, hp, ?_⟩
  · rw [LogCall.expand, sumSizes_eq c.args 0 s (by omega)]
    simp only [Nat.zero_add, Outcome.bind_eq, Outcome.ok_bind, hadd, Outcome.pure_eq]
  · rw [c.map_pair]
    exact hst

/-- A log call that passes its level check stays inside its reservation and stores one
value of each argument under a correct header exactly when the sizes it computed agree
with the values it stored. -/
theorem log_call_sound_iff (c : LogCall σ t) (loggerLevel : LogLevel) (s : σ)
    (hlevel : loggerLevel ≤ c.level) (hfit : SizesFit (c.evaluations s)) :
    ∃ x, c.log loggerLevel s = .ok (some x) ∧ x.args.panicked = false ∧
      (x.Sound (c.evaluations s) ↔ SizesAgree (c.evaluations s)) := by
  obtain ⟨x, hx, hannounced, htotal, hheader, hp, hst⟩ := expand_eq c s hfit
  have hlen : x.args.stores.length = argsSize ((c.evaluations s).map Evaluations.stored) := by
    rw [hst, placeArgs_length, List.map_map]
    rfl
  refine ⟨x, by rw [LogCall.log, if_pos hlevel, hx]; rfl, hp, fun h => ⟨?_, ?_⟩, fun h => ?_⟩
  · rw [← hlen, ← h.announced, hannounced]
  · obtain ⟨vs, -, hvs⟩ := h.stored
    rw [hst, encodeArgs_eq] at hvs
    have hpairs := sizes_agree_of_contiguous hvs
    rw [← List.map_dropLast] at hpairs
    exact fun e he => hpairs _ (List.mem_map_of_mem he)
  · have hplace : x.args.stores =
        encodeArgs (RecordHeader.SIZE t) ((c.evaluations s).map Evaluations.stored) := by
      rw [hst, placeArgs_eq_encodeArgs, List.map_map]
      · rfl
      · rw [← List.map_dropLast]
        intro p hp
        obtain ⟨e, he, rfl⟩ := List.mem_map.mp hp
        exact h.2 e he
    refine ⟨fun p hp => ?_, ?_, ⟨_, ?_, hplace⟩⟩
    · rw [htotal, hannounced, ← h.1]
      rcases List.mem_append.mp hp with hp | hp
      · rw [hheader] at hp
        have := lt_of_mem_storesAt hp
        rw [RecordHeader.toBytes_length] at this
        omega
      · rw [hplace, encodeArgs_eq] at hp
        have := lt_of_mem_storesAt hp
        rw [flatMap_encoding_length] at this
        exact this
    · rw [hlen, h.1, hannounced]
    · rw [List.forall₂_map_left_iff, List.forall₂_same]
      exact fun e _ => .inr (.inr rfl)

/-- Logs `text n` on the `n`-th evaluation of its only argument. -/
def counting (text : ℕ → String) : LogCall ℕ ⟨.w64, .little, true⟩ where
  level := .info
  metadataPtr := 0x1000
  loggerPtr := 0x2000
  timestampNs := 9
  args := [{ type := .str, eval := fun n => (.str (text n), n + 1), typed := fun _ => rfl }]

/-- Same sizes on every evaluation, although the text changes. -/
theorem log_call_sound_iff_same_sizes :
    let c := counting fun n => if n = 2 then "cd" else "ab"
    ∃ x, c.log .debug 0 = .ok (some x) ∧ x.Sound (c.evaluations 0) := by
  intro c
  obtain ⟨x, hx, -, hiff⟩ := log_call_sound_iff c .debug 0 (by decide)
    (by unfold SizesFit; decide)
  exact ⟨x, hx, hiff.mpr ⟨by decide, by decide⟩⟩

/-- An argument that is empty when the sizes are summed and grows afterwards is stored
beyond the reserved bytes. -/
theorem log_call_overruns :
    let c := counting fun n => if n = 0 then "" else "ab"
    SizesFit (c.evaluations 0) ∧
      ∃ x, c.log .debug 0 = .ok (some x) ∧ (38, 98) ∈ x.stores ∧ x.totalSize = 37 ∧
        ¬ x.Sound (c.evaluations 0) := by
  intro c
  refine ⟨by unfold SizesFit; decide, _, rfl, by decide, by decide, fun h => ?_⟩
  exact absurd (h.inside (38, 98) (by decide)) (by decide)

end Insomnilog.Frontend

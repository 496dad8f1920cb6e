import Mathlib.Data.Fintype.Basic
import Mathlib.Data.List.Basic
import Mathlib.Order.Lattice
import Mathlib.Tactic

/-! A memory in which a load may return an older store, and in which plain accesses race unless
one of them happens before the other. Each location is stored to by one thread. -/
namespace ReleaseAcquire

inductive LoadOrder where
  | relaxed
  | acquire
  deriving DecidableEq, Repr

inductive StoreOrder where
  | relaxed
  | release
  deriving DecidableEq, Repr

/-- What happened before a point of a thread: up to which store of each location, and how many
of the plain accesses of each thread. -/
@[ext] structure View (ι τ : Type*) where
  seen : ι → ℕ
  clock : τ → ℕ

namespace View
variable {ι τ : Type*}

instance : PartialOrder (View ι τ) :=
  PartialOrder.lift (fun v => (v.seen, v.clock)) fun _ _ h =>
    View.ext (congrArg Prod.fst h) (congrArg Prod.snd h)

instance : SemilatticeSup (View ι τ) where
  sup v w := ⟨v.seen ⊔ w.seen, v.clock ⊔ w.clock⟩
  le_sup_left _ _ := ⟨le_sup_left, le_sup_left⟩
  le_sup_right _ _ := ⟨le_sup_right, le_sup_right⟩
  sup_le _ _ _ h h' := ⟨sup_le h.1 h'.1, sup_le h.2 h'.2⟩

instance : OrderBot (View ι τ) where
  bot := ⟨fun _ => 0, fun _ => 0⟩
  bot_le v := ⟨fun l => Nat.zero_le (v.seen l), fun a => Nat.zero_le (v.clock a)⟩

@[simp] theorem sup_seen (v w : View ι τ) (l : ι) :
    (v ⊔ w).seen l = max (v.seen l) (w.seen l) := rfl

@[simp] theorem sup_clock (v w : View ι τ) (a : τ) :
    (v ⊔ w).clock a = max (v.clock a) (w.clock a) := rfl

@[simp] theorem bot_seen (l : ι) : (⊥ : View ι τ).seen l = 0 := rfl

@[simp] theorem bot_clock (a : τ) : (⊥ : View ι τ).clock a = 0 := rfl

theorem seen_mono {v w : View ι τ} (h : v ≤ w) (l : ι) : v.seen l ≤ w.seen l := h.1 l

theorem clock_mono {v w : View ι τ} (h : v ≤ w) (a : τ) : v.clock a ≤ w.clock a := h.2 a

/-- The `n`-th store to `l`. -/
def upTo [DecidableEq ι] (l : ι) (n : ℕ) : View ι τ :=
  ⟨fun l' => if l' = l then n else 0, fun _ => 0⟩

/-- The first `n` plain accesses of `a`. -/
def after [DecidableEq τ] (a : τ) (n : ℕ) : View ι τ :=
  ⟨fun _ => 0, fun b => if b = a then n else 0⟩

@[simp] theorem upTo_seen [DecidableEq ι] (l l' : ι) (n : ℕ) :
    (upTo l n : View ι τ).seen l' = if l' = l then n else 0 := rfl

@[simp] theorem upTo_clock [DecidableEq ι] (l : ι) (n : ℕ) (a : τ) :
    (upTo l n : View ι τ).clock a = 0 := rfl

@[simp] theorem after_seen [DecidableEq τ] (a : τ) (n : ℕ) (l : ι) :
    (after a n : View ι τ).seen l = 0 := rfl

@[simp] theorem after_clock [DecidableEq τ] (a b : τ) (n : ℕ) :
    (after a n : View ι τ).clock b = if b = a then n else 0 := rfl

end View

/-- What a thread takes over with a load from a store that handed on `v`. -/
def LoadOrder.takes {ι τ : Type*} (o : LoadOrder) (v : View ι τ) : View ι τ :=
  match o with
  | .relaxed => ⊥
  | .acquire => v

/-- What a thread with view `v` hands on with a store. -/
def StoreOrder.gives {ι τ : Type*} (o : StoreOrder) (v : View ι τ) : View ι τ :=
  match o with
  | .relaxed => ⊥
  | .release => v

structure Message (ι τ α : Type*) where
  value : α
  view : View ι τ

inductive Kind where
  | read
  | write
  deriving DecidableEq, Repr

structure Plain (κ : Type*) where
  address : κ
  kind : Kind
  deriving DecidableEq

def Plain.Conflicts {κ : Type*} (x y : Plain κ) : Prop :=
  x.address = y.address ∧ (x.kind = .write ∨ y.kind = .write)

instance {κ : Type*} [DecidableEq κ] (x y : Plain κ) : Decidable (x.Conflicts y) :=
  inferInstanceAs (Decidable (_ ∧ _))

/-- The stores to each location, from its first value on, the plain accesses of each thread, and
what happened before the next step of each thread. -/
structure Memory (ι τ κ : Type*) (α : ι → Type*) where
  history : (l : ι) → List (Message ι τ (α l))
  accesses : τ → List (Plain κ)
  view : τ → View ι τ
  raced : Bool

namespace Memory
variable {ι τ κ : Type*} {α : ι → Type*}

def init (value : (l : ι) → α l) : Memory ι τ κ α :=
  ⟨fun l => [⟨value l, ⊥⟩], fun _ => [], fun _ => ⊥, false⟩

/-- Every thread knows its own accesses. -/
def Clocked (m : Memory ι τ κ α) : Prop := ∀ a, (m.accesses a).length ≤ (m.view a).clock a

/-- No view is ahead of the stores. -/
structure Closed (m : Memory ι τ κ α) : Prop where
  view : ∀ a l, (m.view a).seen l < (m.history l).length
  message : ∀ l, ∀ msg ∈ m.history l, ∀ l', msg.view.seen l' < (m.history l').length

/-- What the `n`-th store to `l` handed on has reached `a`. -/
def Acquired (m : Memory ι τ κ α) (a : τ) (l : ι) (n : ℕ) : Prop :=
  n ≤ (m.view a).seen l ∧ ∃ msg, (m.history l)[n]? = some msg ∧ msg.view ≤ m.view a

/-- All stores to `l` after the `i`-th hand on the access `n` of `a`. -/
def HandedOn (m : Memory ι τ κ α) (a : τ) (n : ℕ) (l : ι) (i : ℕ) : Prop :=
  ∀ j msg, (m.history l)[j]? = some msg → i < j → n < msg.view.clock a

/-- The access happens before what comes after an acquiring load of such a store. -/
theorem HandedOn.acquired {m : Memory ι τ κ α} {a b : τ} {l : ι} {n i j : ℕ}
    (h : m.HandedOn a n l i) (hj : m.Acquired b l j) (hij : i < j) : n < (m.view b).clock a := by
  obtain ⟨-, msg, hmsg, hle⟩ := hj
  exact (h j msg hmsg hij).trans_le (View.clock_mono hle a)

/-- There is no such store yet. -/
theorem handedOn_newest {m : Memory ι τ κ α} {l : ι} {i : ℕ} (h : (m.history l).length ≤ i + 1)
    (a : τ) (n : ℕ) : m.HandedOn a n l i := by
  intro j msg hmsg hij
  have hj := (List.getElem?_eq_some_iff.mp hmsg).choose
  omega

/-- A conflicting access of another thread does not happen before. -/
def Races (m : Memory ι τ κ α) (a : τ) (x : Plain κ) : Prop :=
  ∃ b, b ≠ a ∧ ∃ y ∈ (m.accesses b).drop ((m.view a).clock b), x.Conflicts y

/-- What does not happen before has a number the thread does not know of yet. -/
theorem Races.cases {m : Memory ι τ κ α} {a : τ} {x : Plain κ} (h : m.Races a x) :
    ∃ b, b ≠ a ∧ ∃ n y, (m.view a).clock b ≤ n ∧ (m.accesses b)[n]? = some y ∧ x.Conflicts y := by
  obtain ⟨b, hb, y, hy, hconflict⟩ := h
  obtain ⟨n, hn⟩ := List.mem_iff_getElem?.mp hy
  rw [List.getElem?_drop] at hn
  exact ⟨b, hb, _, y, Nat.le_add_right _ n, hn, hconflict⟩

/-- At first each location has one message. -/
theorem init_message {value : (l : ι) → α l} {l : ι} {n : ℕ} {msg : Message ι τ (α l)}
    (h : ((init value : Memory ι τ κ α).history l)[n]? = some msg) :
    n = 0 ∧ msg = ⟨value l, ⊥⟩ := by
  rw [show (init value : Memory ι τ κ α).history l = [⟨value l, ⊥⟩] from rfl,
    List.getElem?_singleton] at h
  obtain ⟨hn, hmsg⟩ := Option.ite_none_right_eq_some.mp h
  exact ⟨hn, (Option.some.inj hmsg).symm⟩

theorem init_clocked (value : (l : ι) → α l) : (init value : Memory ι τ κ α).Clocked :=
  fun _ => Nat.zero_le _

theorem init_closed (value : (l : ι) → α l) : (init value : Memory ι τ κ α).Closed where
  view _ _ := Nat.one_pos
  message l msg hmsg l' := by
    obtain rfl := List.mem_singleton.mp hmsg
    exact Nat.one_pos

theorem init_acquired (value : (l : ι) → α l) (a : τ) (l : ι) :
    (init value : Memory ι τ κ α).Acquired a l 0 := ⟨le_rfl, ⟨value l, ⊥⟩, rfl, le_rfl⟩

theorem Closed.pos {m : Memory ι τ κ α} (h : m.Closed) (a : τ) (l : ι) :
    0 < (m.history l).length :=
  (Nat.zero_le _).trans_lt (h.view a l)

section Views
variable [DecidableEq τ]

/-- Thread `a` gets to know what is in `v`. -/
def raise (m : Memory ι τ κ α) (a : τ) (v : View ι τ) : Memory ι τ κ α :=
  { m with view := Function.update m.view a (m.view a ⊔ v) }

/-- What happened before `a` now happened before `b` as well: `b` has joined `a`, say. -/
def join (m : Memory ι τ κ α) (a b : τ) : Memory ι τ κ α := m.raise b (m.view a)

instance [Fintype τ] [DecidableEq κ] (m : Memory ι τ κ α) (a : τ) (x : Plain κ) :
    Decidable (m.Races a x) :=
  inferInstanceAs (Decidable (∃ b, b ≠ a ∧ _))

def access [Fintype τ] [DecidableEq κ] (m : Memory ι τ κ α) (a : τ) (x : Plain κ) :
    Memory ι τ κ α :=
  { m.raise a (.after a ((m.accesses a).length + 1)) with
    accesses := Function.update m.accesses a (m.accesses a ++ [x])
    raced := m.raced || decide (m.Races a x) }

variable {m : Memory ι τ κ α} {a b : τ} {v : View ι τ}

theorem raise_self (m : Memory ι τ κ α) (a : τ) (v : View ι τ) :
    (m.raise a v).view a = m.view a ⊔ v := Function.update_self ..

theorem raise_of_ne (h : b ≠ a) : (m.raise a v).view b = m.view b := Function.update_of_ne h ..

theorem le_raise (m : Memory ι τ κ α) (a b : τ) (v : View ι τ) :
    m.view b ≤ (m.raise a v).view b := by
  by_cases h : b = a
  · subst h
    rw [raise_self]
    exact le_sup_left
  · rw [raise_of_ne h]

theorem le_raise_self (m : Memory ι τ κ α) (a : τ) (v : View ι τ) : v ≤ (m.raise a v).view a := by
  rw [raise_self]
  exact le_sup_right

theorem Clocked.raise (h : m.Clocked) (a : τ) (v : View ι τ) : (m.raise a v).Clocked :=
  fun b => (h b).trans (View.clock_mono (le_raise m a b v) b)

theorem Closed.raise (h : m.Closed) (hv : ∀ l, v.seen l < (m.history l).length) :
    (m.raise a v).Closed := by
  refine ⟨fun b l => ?_, h.message⟩
  by_cases hb : b = a
  · subst hb
    rw [raise_self, View.sup_seen]
    exact max_lt (h.view b l) (hv l)
  · rw [raise_of_ne hb]
    exact h.view b l

theorem Acquired.raise {l : ι} {n : ℕ} (h : m.Acquired b l n) (a : τ) (v : View ι τ) :
    (m.raise a v).Acquired b l n := by
  obtain ⟨hseen, msg, hmsg, hle⟩ := h
  have hview := le_raise m a b v
  exact ⟨hseen.trans (View.seen_mono hview l), msg, hmsg, hle.trans hview⟩

section Access
variable [Fintype τ] [DecidableEq κ]

theorem access_self (m : Memory ι τ κ α) (a : τ) (x : Plain κ) :
    (m.access a x).accesses a = m.accesses a ++ [x] := Function.update_self ..

theorem access_of_ne (m : Memory ι τ κ α) (x : Plain κ) (h : b ≠ a) :
    (m.access a x).accesses b = m.accesses b := Function.update_of_ne h ..

theorem access_raced {x : Plain κ} (h : m.raced = false) (hx : ¬ m.Races a x) :
    (m.access a x).raced = false := by
  show (m.raced || decide (m.Races a x)) = false
  rw [h, decide_eq_false hx]
  rfl

theorem raced_of_races {x : Plain κ} (hx : m.Races a x) : (m.access a x).raced = true := by
  show (m.raced || decide (m.Races a x)) = true
  rw [decide_eq_true hx, Bool.or_true]

theorem Clocked.access (h : m.Clocked) (a : τ) (x : Plain κ) : (m.access a x).Clocked := by
  intro b
  by_cases hb : b = a
  · subst hb
    rw [access_self, List.length_append, List.length_singleton]
    have hle := View.clock_mono (le_raise_self m b (.after b ((m.accesses b).length + 1))) b
    rwa [View.after_clock, if_pos rfl] at hle
  · rw [access_of_ne m x hb]
    exact h.raise a _ b

theorem Closed.access (h : m.Closed) (a : τ) (x : Plain κ) : (m.access a x).Closed := by
  have hraised : (m.raise a (.after a ((m.accesses a).length + 1))).Closed :=
    h.raise fun l => h.pos a l
  exact ⟨hraised.view, hraised.message⟩

theorem Acquired.access {l : ι} {n : ℕ} (h : m.Acquired b l n) (a : τ) (x : Plain κ) :
    (m.access a x).Acquired b l n := h.raise a _

end Access
end Views

section Atomics
variable [DecidableEq ι] [DecidableEq τ]

/-- Thread `a` loads the `n`-th store to `l`, which must not be older than one it knows of. -/
def load (m : Memory ι τ κ α) (o : LoadOrder) (a : τ) (l : ι) (n : ℕ) :
    Option (α l × Memory ι τ κ α) :=
  if (m.view a).seen l ≤ n then
    (m.history l)[n]?.map fun msg => (msg.value, m.raise a (.upTo l n ⊔ o.takes msg.view))
  else none

def store (m : Memory ι τ κ α) (o : StoreOrder) (a : τ) (l : ι) (value : α l) :
    Memory ι τ κ α :=
  let n := (m.history l).length
  let msg := ⟨value, .upTo l n ⊔ o.gives (m.view a)⟩
  { m.raise a (.upTo l n) with history := Function.update m.history l (m.history l ++ [msg]) }

variable {m m' : Memory ι τ κ α} {a b : τ} {l l' : ι} {n : ℕ}

/-- What a load does. -/
theorem load_cases {o : LoadOrder} {v : α l} (h : m.load o a l n = some (v, m')) :
    ∃ msg, (m.history l)[n]? = some msg ∧ v = msg.value ∧ (m.view a).seen l ≤ n ∧
      m' = m.raise a (.upTo l n ⊔ o.takes msg.view) := by
  obtain ⟨hle, h⟩ := Option.ite_none_right_eq_some.mp h
  obtain ⟨msg, hmsg, h⟩ := Option.map_eq_some_iff.mp h
  obtain ⟨rfl, rfl⟩ := Prod.mk.inj h
  exact ⟨msg, hmsg, rfl, hle, rfl⟩

theorem load_acquired {v : α l} (h : m.load .acquire a l n = some (v, m')) :
    m'.Acquired a l n := by
  obtain ⟨msg, hmsg, -, -, rfl⟩ := load_cases h
  have hle := le_raise_self m a (.upTo l n ⊔ msg.view)
  have hseen := View.seen_mono hle l
  rw [View.sup_seen, View.upTo_seen, if_pos rfl] at hseen
  exact ⟨(le_max_left _ _).trans hseen, msg, hmsg, le_sup_right.trans hle⟩

theorem store_history (m : Memory ι τ κ α) (o : StoreOrder) (a : τ) (l : ι) (v : α l) :
    (m.store o a l v).history l = m.history l ++
      [⟨v, .upTo l (m.history l).length ⊔ o.gives (m.view a)⟩] := Function.update_self ..

theorem store_history_of_ne (m : Memory ι τ κ α) (o : StoreOrder) (a : τ) (v : α l)
    (h : l' ≠ l) : (m.store o a l v).history l' = m.history l' := Function.update_of_ne h ..

/-- Messages stay where they are. -/
theorem store_keeps {o : StoreOrder} {v : α l} {msg : Message ι τ (α l')}
    (h : (m.history l')[n]? = some msg) : ((m.store o a l v).history l')[n]? = some msg := by
  by_cases hl : l' = l
  · subst hl
    rw [store_history, List.getElem?_append_left (List.getElem?_eq_some_iff.mp h).choose]
    exact h
  · rw [store_history_of_ne m o a v hl]
    exact h

/-- A message is an old one or the one of this store. -/
theorem store_message {o : StoreOrder} {v : α l} {msg : Message ι τ (α l)}
    (h : ((m.store o a l v).history l)[n]? = some msg) :
    (m.history l)[n]? = some msg ∨ n = (m.history l).length ∧ msg.value = v ∧
      msg.view = .upTo l n ⊔ o.gives (m.view a) := by
  rw [store_history] at h
  by_cases hn : n < (m.history l).length
  · rw [List.getElem?_append_left hn] at h
    exact .inl h
  · have hlen := (List.getElem?_eq_some_iff.mp h).choose
    rw [List.length_append, List.length_singleton] at hlen
    obtain rfl : n = (m.history l).length := by omega
    rw [List.getElem?_concat_length] at h
    cases h
    exact .inr ⟨rfl, rfl, rfl⟩

theorem Clocked.store (h : m.Clocked) (o : StoreOrder) (a : τ) (l : ι) (v : α l) :
    (m.store o a l v).Clocked := h.raise a _

theorem Acquired.store (h : m.Acquired b l n) (o : StoreOrder) (a : τ) (l' : ι) (v : α l') :
    (m.store o a l' v).Acquired b l n := by
  obtain ⟨hseen, msg, hmsg, hle⟩ := h.raise a (.upTo l' (m.history l').length)
  exact ⟨hseen, msg, store_keeps hmsg, hle⟩

theorem HandedOn.store_of_ne {i : ℕ} (h : m.HandedOn b n l i) (o : StoreOrder) (a : τ) (v : α l')
    (hl : l ≠ l') : (m.store o a l' v).HandedOn b n l i := by
  unfold HandedOn
  rw [store_history_of_ne m o a v hl]
  exact h

/-- With a release a thread hands on all its accesses. -/
theorem HandedOn.release {i : ℕ} (h : m.HandedOn a n l i) (hclocked : m.Clocked)
    (hn : n < (m.accesses a).length) (v : α l) : (m.store .release a l v).HandedOn a n l i := by
  intro j msg hmsg hij
  rcases store_message hmsg with hold | ⟨-, -, hview⟩
  · exact h j msg hold hij
  · rw [hview, View.sup_clock]
    exact (hn.trans_le (hclocked a)).trans_le (le_max_right _ _)

omit [DecidableEq τ] in
theorem Closed.upTo (h : m.Closed) (a : τ) (hn : n < (m.history l).length) (l' : ι) :
    (View.upTo l n : View ι τ).seen l' < (m.history l').length := by
  rw [View.upTo_seen]
  split
  next hl => exact hl ▸ hn
  next => exact h.pos a l'

theorem Closed.load (h : m.Closed) {o : LoadOrder} {v : α l}
    (hload : m.load o a l n = some (v, m')) : m'.Closed := by
  obtain ⟨msg, hmsg, -, -, rfl⟩ := load_cases hload
  apply h.raise
  intro l'
  rw [View.sup_seen]
  apply max_lt (h.upTo a (List.getElem?_eq_some_iff.mp hmsg).choose l')
  cases o with
  | relaxed => exact h.pos a l'
  | acquire => exact h.message l msg (List.mem_of_getElem? hmsg) l'

/-- A thread may always load the newest store. -/
theorem Closed.load_newest (h : m.Closed) (o : LoadOrder) (a : τ) (l : ι) :
    ∃ msg, (m.history l).getLast? = some msg ∧
      m.load o a l ((m.history l).length - 1) =
        some (msg.value, m.raise a (.upTo l ((m.history l).length - 1) ⊔ o.takes msg.view)) := by
  have hpos := h.pos a l
  have hlt : (m.history l).length - 1 < (m.history l).length := by omega
  refine ⟨_, (List.getLast?_eq_getElem? ..).trans (List.getElem?_eq_getElem hlt), ?_⟩
  have hle : (m.view a).seen l ≤ (m.history l).length - 1 := by
    have := h.view a l
    omega
  rw [Memory.load, if_pos hle, List.getElem?_eq_getElem hlt]
  rfl

theorem Closed.store (h : m.Closed) (o : StoreOrder) (a : τ) (l : ι) (v : α l) :
    (m.store o a l v).Closed := by
  have hgrow (l' : ι) : (m.history l').length ≤ ((m.store o a l v).history l').length := by
    by_cases hl : l' = l
    · subst hl
      rw [store_history, List.length_append]
      exact Nat.le_add_right _ _
    · rw [store_history_of_ne m o a v hl]
  have hnew (l' : ι) : (View.upTo l (m.history l).length : View ι τ).seen l' <
      ((m.store o a l v).history l').length := by
    rw [View.upTo_seen]
    split
    next hl =>
      subst hl
      rw [store_history, List.length_append]
      exact Nat.lt_succ_self _
    next => exact (h.pos a l').trans_le (hgrow l')
  constructor
  · intro b l'
    show ((m.raise a _).view b).seen l' < _
    by_cases hb : b = a
    · subst hb
      rw [raise_self, View.sup_seen]
      exact max_lt ((h.view b l').trans_le (hgrow l')) (hnew l')
    · rw [raise_of_ne hb]
      exact (h.view b l').trans_le (hgrow l')
  · intro l₁ msg hmsg l'
    have hold {msg : Message ι τ (α l₁)} (hmsg : msg ∈ m.history l₁) :
        msg.view.seen l' < ((m.store o a l v).history l').length :=
      (h.message l₁ msg hmsg l').trans_le (hgrow l')
    by_cases hl : l₁ = l
    · subst hl
      rw [store_history] at hmsg
      rcases List.mem_append.mp hmsg with hmsg | hmsg
      · exact hold hmsg
      · rw [List.mem_singleton.mp hmsg, View.sup_seen]
        apply max_lt (hnew l')
        cases o with
        | relaxed => exact (h.pos a l').trans_le (hgrow l')
        | release => exact (h.view a l').trans_le (hgrow l')
    · rw [store_history_of_ne m o a v hl] at hmsg
      exact hold hmsg

end Atomics

end Memory

end ReleaseAcquire

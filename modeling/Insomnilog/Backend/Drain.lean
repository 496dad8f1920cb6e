import Insomnilog.Backend.Retire

/-! The drain at shutdown: how many passes the worker still makes once nothing more is
written, and what the queues hold when it returns. -/
namespace Insomnilog.Backend
open Wire Frontend StepSystem

variable {t : Target} {cfg : Config t} {level : t.Ptr → LogLevel} {k i : ℕ} {s₀ s s' : State t}
  {es : List (Event t)} {B K M p : ℕ}

/-- Nothing is committed and no thread registers. -/
def Event.quiet : Event t → Bool
  | .register _ => false
  | .act _ .commit => false
  | _ => true

/-- A pass starts with the flag set. -/
def startsPass (s : State t) : Event t → Bool
  | .work => s.worker = .top && s.shutdownFlag
  | _ => false

/-- A step of the worker. -/
def works (_ : State t) : Event t → Bool
  | .work => true
  | _ => false

/-- Every unread record decodes. -/
def State.AllDecode (cfg : Config t) (s : State t) : Prop :=
  ∀ i, ∀ r ∈ s.unread i, DecodersOk (cfg.decoders i r.2) r.1.record.args

/-- The passes that the longest queue needs at `B` records a pass, and at least one. -/
def State.passesNeeded (s : State t) (B : ℕ) : ℕ :=
  (s.consumers.map fun i => ((s.unread i).length + (B - 1)) / B).foldr max 1

theorem Turn.unread_suffix (h : Turn cfg s s') (i : ℕ) : s'.unread i <:+ s.unread i := by
  cases h with
  | moves hm hunreads => rw [State.unread, State.unread, hunreads]
  | @takes down j n budget totalLen result rest e es hs hi hunreads =>
    rw [State.unread, State.unread, hunreads]
    by_cases hij : i = j
    · subst hij
      have hlt := (List.getElem?_eq_some_iff.mp hi).choose
      rw [List.getElem?_set_self hlt, hi]
      exact List.suffix_cons _ es
    · rw [List.getElem?_set_ne (Ne.symm hij)]
  | retired hs hunreads => rw [State.unread, State.unread, hunreads]

section Sweep

/-- Of thread `i`, when a visit of thread `j` has taken `used` records and `rest` is to be
visited. -/
def visiting (B i j used : ℕ) (rest : List ℕ) : ℕ :=
  if i = j then min B used else if i ∈ rest then 0 else B

/-- How many records of thread `i` the pass has taken so far, up to `B`, unless its queue was
empty. -/
def Worker.swept (B i : ℕ) : Worker t → ℕ
  | .snapshot _ => 0
  | .visit _ rest => if i ∈ rest then 0 else B
  | .poll _ j budget rest => visiting B i j (MAX_BATCH_PER_CONSUMER - budget) rest
  | .peek _ j budget _ rest => visiting B i j (MAX_BATCH_PER_CONSUMER - (budget + 1)) rest
  | .read _ j budget _ rest => visiting B i j (MAX_BATCH_PER_CONSUMER - (budget + 1)) rest
  | .advance _ j budget _ _ rest => visiting B i j (MAX_BATCH_PER_CONSUMER - (budget + 1)) rest
  | .fanout _ budget rest f _ => visiting B i f.thread (MAX_BATCH_PER_CONSUMER - budget) rest
  | .unwound => 0
  | _ => B

theorem Moves.swept {w w' : Worker t} (h : Moves cfg s w w') (hB : B ≤ MAX_BATCH_PER_CONSUMER)
    (hreg : s.unread i ≠ [] → i ∈ s.consumers) (htop : w ≠ .top) :
    s.unread i = [] ∨ w'.swept B i ≤ w.swept B i := by
  cases h with
  | stop => exact absurd rfl htop
  | top => exact absurd rfl htop
  | snapshot =>
    by_cases hi : s.unread i = []
    · exact .inl hi
    · exact .inr (if_pos (hreg hi)).le
  | visit =>
    refine .inr ?_
    simp only [Worker.swept, visiting, List.mem_cons]
    split_ifs <;> simp_all
  | full =>
    refine .inr ?_
    simp only [Worker.swept, visiting]
    split_ifs <;> omega
  | @empty down j budget rest hj =>
    by_cases hij : i = j
    · exact .inl (hij ▸ hj)
    · refine .inr ?_
      simp only [Worker.swept, visiting, if_neg hij]
      exact le_rfl
  | visited => exact .inr (by simp [Worker.swept])
  | unwind => exact .inr (Nat.zero_le _)
  | _ => exact .inr le_rfl

/-- What a pass takes is missing afterwards. -/
theorem Turn.swept (h : Turn cfg s s') (hB : B ≤ MAX_BATCH_PER_CONSUMER)
    (hdec : B ≤ 1 ∨ s.AllDecode cfg) (hreg : s.unread i ≠ [] → i ∈ s.consumers)
    (htop : s.worker ≠ .top) : s'.unread i = [] ∨
      (s'.unread i).length + s'.worker.swept B i ≤ (s.unread i).length + s.worker.swept B i := by
  cases h with
  | moves hm hunreads =>
    rw [State.unread, hunreads]
    exact (hm.swept hB hreg htop).imp_right fun hle => Nat.add_le_add_left hle _
  | @takes down j n budget totalLen result rest e es hs hi hunreads hconsumers hw =>
    refine .inr ?_
    have hunread : s.unread j = (e, n) :: es := by rw [State.unread, hi]; rfl
    have hlt := (List.getElem?_eq_some_iff.mp hi).choose
    rw [State.unread, hunreads, hs]
    by_cases hij : i = j
    · subst hij
      rw [List.getElem?_set_self hlt, hunread]
      rcases hw with ⟨hfail, hw⟩ | ⟨f, rfl, hw⟩
      · have hone : B ≤ 1 := hdec.resolve_right fun hall =>
          hfail (hall i (e, n) (hunread ▸ List.mem_cons_self))
        rw [hw]
        simp only [Option.getD_some, List.length_cons, Worker.swept, visiting, if_true]
        split_ifs <;> omega
      · rw [hw]
        simp only [Option.getD_some, List.length_cons, Worker.swept, visiting, if_true]
        omega
    · rw [List.getElem?_set_ne (Ne.symm hij)]
      rcases hw with ⟨-, hw⟩ | ⟨f, rfl, hw⟩
      all_goals
        rw [hw]
        simp only [Worker.swept, visiting, if_neg hij]
        exact le_rfl
  | @retired down kept hs hunreads hconsumers hw =>
    rw [State.unread, hunreads, hs, hw]
    cases down <;> exact .inr le_rfl

end Sweep

section Rank

/-- The flag, as the pass under way has loaded it. -/
def Worker.down : Worker t → Bool
  | .snapshot down => down
  | .visit down _ => down
  | .poll down _ _ _ => down
  | .peek down _ _ _ _ => down
  | .read down _ _ _ _ => down
  | .advance down _ _ _ _ _ => down
  | .fanout down _ _ _ _ => down
  | .retire down _ _ => down
  | .retireDead down _ _ _ => down
  | _ => true

/-- The consumers that the call of `retire_dead_consumers` has examined, or is going to. -/
def Worker.examined : Worker t → ℕ
  | .retire _ kept rest => kept.length + rest.length
  | .retireDead _ kept _ rest => kept.length + (rest.length + 1)
  | _ => 0

/-- Steps that the pass can still take, for `n` consumers, when it takes no more records. -/
def Worker.rank (n : ℕ) : Worker t → ℕ
  | .snapshot _ => 8 * n + 5
  | .visit _ rest => 5 * rest.length + 3 * n + 4
  | .poll _ _ _ rest => 5 * rest.length + 3 * n + 8
  | .peek _ _ _ _ rest => 5 * rest.length + 3 * n + 7
  | .read _ _ _ _ rest => 5 * rest.length + 3 * n + 6
  | .advance _ _ _ _ _ rest => 5 * rest.length + 3 * n + 5
  | .fanout _ _ rest _ sinks => 5 * rest.length + 3 * n + 9 + sinks.length
  | .retire _ kept rest => 3 * rest.length + kept.length + 3
  | .retireDead _ kept _ rest => 3 * rest.length + kept.length + 5
  | .beforePending => n + 2
  | .pending rest => rest.length + 1
  | _ => 0

/-- Steps that taking and dispatching the unread records can add. -/
def State.load (cfg : Config t) (s : State t) : ℕ :=
  (s.unreads.map fun l =>
    (l.map fun r => (cfg.logger r.1.record.loggerPtr).sinks.length + 5).sum).sum

theorem Turn.down (h : Turn cfg s s') (htop : s.worker ≠ .top) (hd : s.worker.down = true) :
    s'.worker.down = true := by
  cases h with
  | moves hm =>
    generalize hw : s.worker = w at hm htop hd
    generalize hw' : s'.worker = w' at hm
    cases hm with
    | top => exact absurd rfl htop
    | _ => first | exact hd | rfl
  | takes hs hi hunreads hconsumers hw =>
    rw [hs] at hd
    rcases hw with ⟨-, hw⟩ | ⟨f, -, hw⟩
    all_goals
      rw [hw]
      exact hd
  | @retired down kept hs hunreads hconsumers hw =>
    rw [hs] at hd
    obtain rfl : down = true := hd
    rw [hw]
    rfl

theorem Turn.examined (h : Turn cfg s s') (hsize : s.consumers.length ≤ M)
    (hexamined : s.worker.examined ≤ M) :
    s'.consumers.length ≤ M ∧ s'.worker.examined ≤ M := by
  cases h with
  | moves hm hunreads hconsumers =>
    rw [hconsumers]
    refine ⟨hsize, ?_⟩
    generalize hw : s.worker = w at hm hexamined
    generalize hw' : s'.worker = w' at hm
    cases hm
    all_goals
      simp only [Worker.examined, List.length_append, List.length_cons, List.length_nil] at *
      omega
  | takes hs hi hunreads hconsumers hw =>
    rw [hconsumers]
    rcases hw with ⟨-, hw⟩ | ⟨f, -, hw⟩
    all_goals
      rw [hw]
      exact ⟨hsize, Nat.zero_le M⟩
  | @retired down kept hs hunreads hconsumers hw =>
    rw [hs] at hexamined
    rw [hconsumers, hw]
    cases down <;> exact ⟨hexamined, Nat.zero_le M⟩

/-- Apart from the start of a pass, every step of the worker lowers the rank. -/
theorem Moves.rank {w w' : Worker t} (h : Moves cfg s w w') (htop : w ≠ .top) :
    w'.rank s.consumers.length < w.rank s.consumers.length := by
  cases h with
  | stop => exact absurd rfl htop
  | top => exact absurd rfl htop
  | _ =>
    simp only [Worker.rank, List.length_append, List.length_cons, List.length_nil]
    omega

theorem Turn.rank (h : Turn cfg s s') (htop : s.worker ≠ .top) :
    s'.load cfg + s'.worker.rank s'.consumers.length <
      s.load cfg + s.worker.rank s.consumers.length := by
  cases h with
  | moves hm hunreads hconsumers =>
    rw [State.load, State.load, hunreads, hconsumers]
    exact Nat.add_lt_add_left (hm.rank htop) _
  | @takes down j n budget totalLen result rest e es hs hi hunreads hconsumers hw =>
    have hsum := sum_map_set (f := fun l : List (Entry t × ℕ) =>
      (l.map fun r => (cfg.logger r.1.record.loggerPtr).sinks.length + 5).sum) hi es
    simp only [List.map_cons, List.sum_cons] at hsum
    rw [State.load, State.load, hunreads, hconsumers, hs]
    rcases hw with ⟨-, hw⟩ | ⟨f, -, hw⟩
    all_goals
      rw [hw]
      simp only [Worker.rank]
      omega
  | @retired down kept hs hunreads hconsumers hw =>
    rw [State.load, State.load, hunreads, hconsumers, hs, hw]
    cases down
    all_goals
      simp only [Worker.rank, Bool.false_eq_true, if_false, if_true, List.length_nil]
      omega

end Rank

section Quiet

/-- What a step that is none of the worker leaves, when nothing is committed and no thread
registers. -/
structure Still (s s' : State t) : Prop where
  worker : s'.worker = s.worker
  consumers : s'.consumers = s.consumers
  unreads : s'.unreads = s.unreads ∨ s'.unreads = s.unreads ++ [[]]
  flag : s.shutdownFlag = true → s'.shutdownFlag = true

theorem Still.unread (h : Still s s') (i : ℕ) : s'.unread i = s.unread i := by
  rcases h.unreads with hsame | hadd
  · rw [State.unread, State.unread, hsame]
  · rw [State.unread, State.unread, hadd, List.getElem?_append]
    split
    · rfl
    next hge =>
      rw [List.getElem?_eq_none (Nat.not_lt.mp hge)]
      rcases i - s.unreads.length with - | n <;> rfl

theorem Still.load (h : Still s s') : s'.load cfg = s.load cfg := by
  rcases h.unreads with hsame | hadd
  · rw [State.load, State.load, hsame]
  · rw [State.load, State.load, hadd]
    simp

theorem Thread.act_unread {a : Action t} {th th' : Thread t} {lvl : t.Ptr → LogLevel}
    (ha : th.act cfg lvl a = some th') (hne : a ≠ .commit) : th'.unread = th.unread := by
  rcases Thread.act_cases ha with ⟨r, -, -, -, rfl⟩ | ⟨e, -, -, -, rfl⟩ | ⟨off, e, rfl, -, -⟩ |
    ⟨e, -, -, rfl⟩ | ⟨-, -, rfl⟩
  · unfold Thread.check
    split <;> rfl
  · unfold Thread.reserve
    split <;> rfl
  · exact absurd rfl hne
  · rfl
  · rfl

theorem quiet_still {e : Event t} (he : step cfg s e = some s') (hquiet : e.quiet = true)
    (hne : e ≠ .work) : Still s s' := by
  cases e with
  | spawn =>
    cases he
    refine ⟨rfl, rfl, .inr ?_, id⟩
    rw [State.unreads, State.spawn, List.map_append]
    rfl
  | register i => cases hquiet
  | act i a =>
    obtain ⟨th, hi, hr⟩ := Option.bind_eq_some_iff.mp he
    obtain ⟨th', ha, rfl⟩ := Option.map_eq_some_iff.mp hr
    have hcommit : a ≠ .commit := by
      rintro rfl
      cases hquiet
    exact ⟨rfl, rfl, .inl (State.unreads_setThread hi (Thread.act_unread ha hcommit)), id⟩
  | setLevel logger lvl =>
    cases he
    exact ⟨rfl, rfl, .inl rfl, id⟩
  | shutdown =>
    cases he
    exact ⟨rfl, rfl, .inl rfl, fun _ => rfl⟩
  | work => exact absurd rfl hne

end Quiet

section Passes

/-- Thread `i` had been checked already by the call of `any_queues_pending` under way at first,
and no pass has started since. -/
def Exempt (s₀ : State t) (p i : ℕ) : Prop :=
  p = 0 ∧ ∃ rest, s₀.worker = .pending rest ∧ i ∉ rest

/-- The queues that `any_queues_pending` has still to check. -/
def Worker.unseen : Worker t → Option (List ℕ)
  | .pending rest => some rest
  | .done => some []
  | _ => none

/-- What holds `p` passes after `s₀`, when every visit takes `B` records if it can. -/
structure DrainInv (B K M : ℕ) (s₀ : State t) (p : ℕ) (s : State t) : Prop where
  flag : s.shutdownFlag = true
  le : p ≤ K
  top : s.worker = .top → p < K
  size : s.consumers.length ≤ M
  examined : s.worker.examined ≤ M
  suffix : ∀ i, s.unread i <:+ s₀.unread i
  owes : p ≠ 0 → s.worker.down = true ∧ ∀ i, s.unread i = [] ∨
    (s.unread i).length + (B * (p - 1) + s.worker.swept B i) ≤ (s₀.unread i).length
  empty : ∀ rest, s.worker.unseen = some rest → ∀ i, i ∉ rest → s.unread i = [] ∨ Exempt s₀ p i

/-- Steps left to the worker after `p` passes. -/
def drainRank (cfg : Config t) (K M p : ℕ) (s : State t) : ℕ :=
  (K - p) * (8 * M + 6) + (s.load cfg + s.worker.rank s.consumers.length)

/-- The worker goes back to the top when it has found a queue pending, or when it has not loaded
the flag as set. -/
theorem Turn.to_top (h : Turn cfg s s') (htop : s'.worker = .top) :
    (∃ i rest, s.worker = .pending (i :: rest) ∧ s.unread i ≠ []) ∨ s.worker.down = false := by
  cases h with
  | moves hm =>
    generalize hw : s.worker = w at hm
    rw [htop] at hm
    cases hm with
    | found hi => exact .inl ⟨_, _, rfl, hi⟩
  | takes hs hi hunreads hconsumers hw =>
    rcases hw with ⟨-, hw⟩ | ⟨f, -, hw⟩
    all_goals cases htop.symm.trans hw
  | @retired down kept hs hunreads hconsumers hw =>
    cases down with
    | true => cases htop.symm.trans hw
    | false => exact .inr (by rw [hs]; rfl)

/-- A queue drops out of the check when it is found empty. -/
theorem Turn.unseen {rest : List ℕ} (h : Turn cfg s s') (htop : s.worker ≠ .top)
    (hreg : s.unread i ≠ [] → i ∈ s.consumers) (hrest : s'.worker.unseen = some rest)
    (hi : i ∉ rest) : s.unread i = [] ∨ ∃ rest', s.worker.unseen = some rest' ∧ i ∉ rest' := by
  cases h with
  | moves hm =>
    generalize hw : s.worker = w at hm htop
    generalize hw' : s'.worker = w' at hm hrest
    cases hm with
    | stop => exact absurd rfl htop
    | beforePending =>
      obtain rfl := Option.some.inj hrest
      by_contra hne
      exact hi (hreg fun hnil => hne (.inl hnil))
    | drained =>
      obtain rfl := Option.some.inj hrest
      exact .inr ⟨[], rfl, hi⟩
    | @next j l hj =>
      obtain rfl := Option.some.inj hrest
      by_cases hij : i = j
      · exact .inl (hij ▸ hj)
      · exact .inr ⟨j :: l, rfl, by simp [hij, hi]⟩
    | _ => cases hrest
  | takes hs hunread hunreads hconsumers hw =>
    rcases hw with ⟨-, hw⟩ | ⟨f, -, hw⟩
    all_goals
      rw [hw] at hrest
      cases hrest
  | @retired down kept hs hunreads hconsumers hw =>
    rw [hw] at hrest
    cases down <;> cases hrest

namespace DrainInv

theorem init (hflag : s.shutdownFlag = true) (hK : 0 < K) (hdone : s.worker ≠ .done) :
    DrainInv B K (s.consumers.length + s.worker.examined) s 0 s := by
  refine ⟨hflag, hK.le, fun _ => hK, Nat.le_add_right _ _, Nat.le_add_left _ _,
    fun i => List.suffix_rfl, fun h => absurd rfl h, fun rest hrest i hi => ?_⟩
  cases hw : s.worker with
  | pending l =>
    rw [hw] at hrest
    obtain rfl := Option.some.inj hrest
    exact .inr ⟨rfl, l, hw, hi⟩
  | done => exact absurd hw hdone
  | _ => rw [hw] at hrest; cases hrest

theorem still (h : DrainInv B K M s₀ p s) (hs : Still s s') : DrainInv B K M s₀ p s' := by
  obtain ⟨hflag, hle, htop, hsize, hexamined, hsuffix, howes, hempty⟩ := h
  refine ⟨hs.flag hflag, hle, ?_, ?_, ?_, ?_, ?_, ?_⟩
  all_goals simp only [hs.worker, hs.consumers, hs.unread]
  all_goals assumption

/-- A pass starts. -/
theorem pass (h : DrainInv B K M s₀ p s) (htop : s.worker = .top)
    (hw : s'.worker = .snapshot true) (hflag : s'.shutdownFlag = true)
    (hunreads : s'.unreads = s.unreads) (hconsumers : s'.consumers = s.consumers) :
    DrainInv B K M s₀ (p + 1) s' := by
  have hunread (i : ℕ) : s'.unread i = s.unread i := by rw [State.unread, hunreads]; rfl
  refine ⟨hflag, h.top htop, ?_, ?_, ?_, ?_, fun _ => ⟨?_, fun i => ?_⟩, ?_⟩
  · rw [hw]
    rintro ⟨⟩
  · rw [hconsumers]
    exact h.size
  · rw [hw]
    exact Nat.zero_le M
  · intro i
    rw [hunread]
    exact h.suffix i
  · rw [hw]
    rfl
  · rw [hunread, hw, Nat.add_sub_cancel]
    rcases Nat.eq_zero_or_pos p with rfl | hpos
    · exact .inr (h.suffix i).length_le
    · refine ((h.owes hpos.ne').2 i).imp_right fun hle => ?_
      obtain ⟨q, rfl⟩ := Nat.exists_eq_add_of_le' hpos
      rw [htop, Nat.add_sub_cancel] at hle
      rw [Nat.mul_succ]
      exact hle
  · rw [hw]
    rintro rest ⟨⟩

/-- A step within a pass. -/
theorem turn (h : DrainInv B K M s₀ p s) (hturn : Turn cfg s s') (htop : s.worker ≠ .top)
    (hB : B ≤ MAX_BATCH_PER_CONSUMER) (hdec : B ≤ 1 ∨ s₀.AllDecode cfg)
    (hreg : ∀ i, s.unread i ≠ [] → i ∈ s.consumers)
    (hneeds : ∀ i, (s₀.unread i).length ≤ B * K) (hK : 0 < K) (hflag : s'.shutdownFlag = true) :
    DrainInv B K M s₀ p s' := by
  have hsuffix (i : ℕ) := hturn.unread_suffix i
  have hnil {i : ℕ} (hi : s.unread i = []) : s'.unread i = [] := by
    exact List.suffix_nil.mp (hi ▸ hsuffix i)
  have hdec' : B ≤ 1 ∨ s.AllDecode cfg :=
    hdec.imp_right fun hall i r hr => hall i r ((h.suffix i).subset hr)
  obtain ⟨hsize, hexamined⟩ := hturn.examined h.size h.examined
  refine
    { flag := hflag
      le := h.le
      top := fun htop' => ?_
      size := hsize
      examined := hexamined
      suffix := fun i => (hsuffix i).trans (h.suffix i)
      owes := fun hp => ⟨hturn.down htop (h.owes hp).1, fun i => ?_⟩
      empty := fun rest hrest i hi => ?_ }
  · rcases Nat.eq_zero_or_pos p with rfl | hpos
    · exact hK
    · obtain ⟨hdown, howes⟩ := h.owes hpos.ne'
      rcases hturn.to_top htop' with ⟨i, rest, hw, hi⟩ | hup
      · -- queue `i` is still pending, so the passes so far have not been enough
        have hle := (howes i).resolve_left hi
        have hlength := List.length_pos_iff.mpr hi
        obtain ⟨q, rfl⟩ := Nat.exists_eq_add_of_le' hpos
        rw [hw, Nat.add_sub_cancel] at hle
        have hlt : B * (q + 1) < B * K := by
          calc B * (q + 1) = B * q + B := Nat.mul_succ B q
            _ < (s.unread i).length + (B * q + B) := by omega
            _ ≤ (s₀.unread i).length := hle
            _ ≤ B * K := hneeds i
        exact Nat.lt_of_mul_lt_mul_left hlt
      · rw [hdown] at hup
        cases hup
  · rcases (h.owes hp).2 i with hi | hle
    · exact .inl (hnil hi)
    · refine (hturn.swept hB hdec' (hreg i) htop).imp_right fun hle' => ?_
      omega
  · rcases hturn.unseen htop (hreg i) hrest hi with hi | ⟨rest', hrest', hi'⟩
    · exact .inl (hnil hi)
    · exact (h.empty rest' hrest' i hi').imp_left hnil

end DrainInv

/-- The first step of a pass spends one of the passes left. -/
theorem drainRank_pass (hlt : p < K) (hsize : s.consumers.length ≤ M) (htop : s.worker = .top)
    (hw : s'.worker = .snapshot true) (hunreads : s'.unreads = s.unreads)
    (hconsumers : s'.consumers = s.consumers) :
    1 + drainRank cfg K M (p + 1) s' ≤ drainRank cfg K M p s := by
  obtain ⟨n, rfl⟩ := Nat.exists_eq_add_of_lt hlt
  have hleft : p + n + 1 - p = (p + n + 1 - (p + 1)) + 1 := by omega
  have hload : s'.load cfg = s.load cfg := by rw [State.load, State.load, hunreads]
  rw [drainRank, drainRank, hleft, Nat.succ_mul _ (8 * M + 6), hload, hw, htop, hconsumers]
  simp only [Worker.rank]
  omega

theorem drain_step (hwait : cfg.waitForDrain = true) (hB : B ≤ MAX_BATCH_PER_CONSUMER)
    (hdec : B ≤ 1 ∨ s₀.AllDecode cfg) (hneeds : ∀ i, (s₀.unread i).length ≤ B * K) (hK : 0 < K)
    {e : Event t} (hs : (system cfg level).Reachable s) (h : DrainInv B K M s₀ p s)
    (hquiet : e.quiet = true) (he : step cfg s e = some s') :
    DrainInv B K M s₀ (p + (startsPass s e).toNat) s' ∧
      (works s e).toNat + drainRank cfg K M (p + (startsPass s e).toNat) s' ≤
        drainRank cfg K M p s := by
  by_cases hwork : e = .work
  · subst hwork
    obtain ⟨k, hinv⟩ := backend_invariant hs
    by_cases htop : s.worker = .top
    · have hstarts : startsPass s .work = true := by simp [startsPass, htop, h.flag]
      have hw : s.work cfg = some s' := he
      simp only [State.work, htop, h.flag, hwait, Bool.not_true, Bool.and_false,
        Bool.false_eq_true, if_false, Option.some.injEq] at hw
      subst hw
      rw [hstarts]
      exact ⟨h.pass htop rfl rfl rfl rfl, drainRank_pass (h.top htop) h.size htop rfl rfl rfl⟩
    · have hstarts : startsPass s .work = false := by simp [startsPass, htop]
      have hturn := hinv.turn he
      have hflag : s'.shutdownFlag = true := by
        rw [(hinv.work he).flag, (work_frame he).mark, ← hinv.flag]
        exact h.flag
      rw [hstarts]
      refine ⟨h.turn hturn htop hB hdec (fun i => hinv.registered_of_unread) hneeds hK hflag, ?_⟩
      have hrank := hturn.rank htop
      simp only [drainRank, works, Bool.toNat_true, Bool.toNat_false, Nat.add_zero]
      omega
  · have hstill := quiet_still he hquiet hwork
    have hstarts : startsPass s e = false := by
      cases e with
      | work => exact absurd rfl hwork
      | _ => rfl
    have hworks : works s e = false := by
      cases e with
      | work => exact absurd rfl hwork
      | _ => rfl
    rw [hstarts, hworks]
    refine ⟨h.still hstill, ?_⟩
    simp only [drainRank, hstill.load, hstill.worker, hstill.consumers, Bool.toNat_false,
      Nat.add_zero, Nat.zero_add]
    exact le_rfl

/-- What becomes of a run to `s` that goes on to `s'`, in terms of the passes that start with
the flag set. -/
structure DrainsTo (cfg : Config t) (level : t.Ptr → LogLevel) (es₀ : List (Event t))
    (s : State t) (steps : ℕ) (es : List (Event t)) (s' : State t) : Prop where
  passes : (system cfg level).count startsPass s es ≤ s.passesNeeded 1
  batches : s.AllDecode cfg →
    (system cfg level).count startsPass s es ≤ s.passesNeeded MAX_BATCH_PER_CONSUMER
  steps : (system cfg level).count works s es ≤ steps
  alive : s'.worker ≠ .unwound
  goes_on : s'.worker ≠ .done → ∃ s'', s'.work cfg = some s''
  empty : s'.worker = .done → ∀ i, s'.unread i = [] ∨
    Exempt s ((system cfg level).count startsPass s es) i
  survivors : s'.worker = .done → ∀ i ∈ s'.consumers,
    (system cfg level).Since (fun u => u.worker ≠ .top) (FoundAlive i) (es₀ ++ es)

theorem passesNeeded_pos (s : State t) (B : ℕ) : 0 < s.passesNeeded B := by
  unfold State.passesNeeded
  induction s.consumers with
  | nil => exact Nat.one_pos
  | cons i l ih => exact lt_max_of_lt_right ih

/-- So many passes are enough for every queue. -/
theorem unread_le_passesNeeded (hB : 0 < B) (hreg : ∀ i, s.unread i ≠ [] → i ∈ s.consumers)
    (i : ℕ) : (s.unread i).length ≤ B * s.passesNeeded B := by
  by_cases hi : s.unread i = []
  · rw [hi]
    exact Nat.zero_le _
  · have hmem := hreg i hi
    have hceil : (s.unread i).length ≤ B * (((s.unread i).length + (B - 1)) / B) := by
      have := Nat.lt_mul_div_succ ((s.unread i).length + (B - 1)) hB
      rw [Nat.mul_succ] at this
      omega
    refine hceil.trans (Nat.mul_le_mul_left B ?_)
    unfold State.passesNeeded
    generalize s.consumers = l at hmem ⊢
    induction l with
    | nil => cases hmem
    | cons j l ih =>
      rcases List.mem_cons.mp hmem with rfl | hmem
      · exact Nat.le_max_left _ _
      · exact (ih hmem).trans (Nat.le_max_right _ _)

/-- A run in which nothing more is committed or registered, when every visit takes `B` records
if it can. -/
theorem drain_run (hwait : cfg.waitForDrain = true) (hs : (system cfg level).Reachable s)
    (hflag : s.shutdownFlag = true) (hdone : s.worker ≠ .done) (hpos : 0 < B)
    (hB : B ≤ MAX_BATCH_PER_CONSUMER) (hdec : B ≤ 1 ∨ s.AllDecode cfg)
    (hquiet : ∀ e ∈ es, e.quiet = true) (hrun : (system cfg level).runFrom s es = some s') :
    let M := s.consumers.length + s.worker.examined
    DrainInv B (s.passesNeeded B) M s ((system cfg level).count startsPass s es) s' ∧
      (system cfg level).count works s es ≤ drainRank cfg (s.passesNeeded B) M 0 s := by
  obtain ⟨k, hinv⟩ := backend_invariant hs
  have hneeds := unread_le_passesNeeded hpos fun i => hinv.registered_of_unread
  have hK := passesNeeded_pos s B
  obtain ⟨h, hsteps⟩ := hs.counted (C := fun e => e.quiet = true)
    (fun p u e u' hu h hquiet he => drain_step hwait hB hdec hneeds hK hu h hquiet he)
    (DrainInv.init hflag hK hdone) hquiet hrun
  rw [Nat.zero_add] at h
  exact ⟨h, (Nat.le_add_right _ _).trans hsteps⟩

/-- With `wait_for_drain`, the worker returns after a bounded number of steps once nothing more
is committed or registered, and after as many passes as the longest queue has records. It then
leaves records only in queues that it had checked before. -/
theorem shutdown_drain_terminates (hwait : cfg.waitForDrain = true) {es₀ : List (Event t)}
    (hr : (system cfg level).run es₀ = some s) (hflag : s.shutdownFlag = true)
    (hdone : s.worker ≠ .done)
    (hdec : ∀ i, ∀ r ∈ s.unread i, ¬ DecoderPanics (cfg.decoders i r.2) r.1.record.args) :
    ∃ steps, ∀ es s', (∀ e ∈ es, e.quiet = true) → (system cfg level).runFrom s es = some s' →
      DrainsTo cfg level es₀ s steps es s' := by
  have hs : (system cfg level).Reachable s := ⟨es₀, hr⟩
  refine ⟨drainRank cfg (s.passesNeeded 1) (s.consumers.length + s.worker.examined) 0 s,
    fun es s' hquiet hrun => ?_⟩
  obtain ⟨hinv₁, hsteps⟩ := drain_run hwait hs hflag hdone one_pos (by decide) (.inl le_rfl) hquiet
    hrun
  have hs' := hs.runFrom hrun
  obtain ⟨k', hinv'⟩ := backend_invariant hs'
  have halive : s'.worker ≠ .unwound := by
    intro hun
    have hok := hinv'.worker
    rw [hun] at hok
    obtain ⟨i, th, hi, e, he, hpanic⟩ := hok
    refine hdec i (e, th.results.length) ((hinv₁.suffix i).subset ?_)
      (Record.decoded_panic_iff.mp hpanic)
    rw [State.unread_of_getElem? hi, Thread.unread_eq_cons he]
    exact List.mem_cons_self
  exact
    { passes := hinv₁.le
      batches := fun hall =>
        (drain_run hwait hs hflag hdone (by decide) le_rfl (.inr hall) hquiet hrun).1.le
      steps := hsteps
      alive := halive
      goes_on := fun hne => hinv'.goes_on hne halive
      empty := fun hend i => hinv₁.empty [] (by rw [hend]; rfl) i List.not_mem_nil
      survivors := fun hend i hi => by
        have hrun' : (system cfg level).run (es₀ ++ es) = some s' := by
          rw [StepSystem.run] at hr
          rw [StepSystem.run, runFrom_append, hr]
          exact hrun
        have hsurvivor : i ∈ s'.survivors := by
          rw [State.survivors, hend]
          exact hi
        refine (survivors_since hwait hrun' hsurvivor).resolve_right fun h => ?_
        rw [State.unchecked, hend] at h
        cases h.2 }

/-- Two threads log before the flag is stored, one of them two records. -/
def unevenRun (decoder : small.Ptr) : List (Event small) :=
  List.flatten [[.spawn, .register 0, .spawn, .register 1], logCall 0 (customRecord decoder),
    logCall 0 (customRecord 1), logCall 1 (customRecord 1), [.shutdown]]

/-- The first record of the longer queue fails to decode, which costs a second pass. -/
theorem shutdown_drain_terminates_uneven :
    ∃ s, (smallSystem fun d => if d = 1 then .ok "one" else .err ()).run (unevenRun 2) = some s ∧
      s.passesNeeded 1 = 2 ∧ ∃ steps, ∀ es s', (∀ e ∈ es, e.quiet = true) →
        (smallSystem fun d => if d = 1 then .ok "one" else .err ()).runFrom s es = some s' →
          DrainsTo (smallConfig fun d => if d = 1 then .ok "one" else .err ()) (fun _ => .trace)
            (unevenRun 2) s steps es s' := by
  have hrun : ((smallSystem fun d => if d = 1 then .ok "one" else .err ()).run (unevenRun 2)).map
      (fun s => (s.shutdownFlag, s.worker, s.passesNeeded 1)) = some (true, .top, 2) := by
    decide +kernel
  obtain ⟨s, hs, hvalues⟩ := Option.map_eq_some_iff.mp hrun
  simp only [Prod.mk.injEq] at hvalues
  obtain ⟨hflag, hworker, hpasses⟩ := hvalues
  refine ⟨s, hs, hpasses, shutdown_drain_terminates rfl hs hflag (by rw [hworker]; decide) ?_⟩
  rintro i r - ⟨n, c, -, hpanic, -⟩
  simp only [smallConfig] at hpanic
  split at hpanic <;> cases hpanic

/-- A record that is committed when `any_queues_pending` has just found its queue empty is left
behind, although the thread writes nothing more until `run` returns. -/
theorem late_commit_left_behind :
    ∃ s s', (smallSystem fun _ => .ok "one").run ([.spawn, .register 0, .shutdown] ++
        .replicate 9 .work ++ logCall 0 (customRecord 1)) = some s ∧
      s.shutdownFlag = true ∧ s.worker ≠ .done ∧
      (smallSystem fun _ => .ok "one").runFrom s [.work] = some s' ∧
      s'.worker = .done ∧ 0 ∈ s'.consumers ∧ (s'.unread 0).length = 1 := by
  have hrun : ((smallSystem fun _ => .ok "one").run ([.spawn, .register 0, .shutdown] ++
        .replicate 9 .work ++ logCall 0 (customRecord 1))).bind (fun s =>
      ((smallSystem fun _ => .ok "one").runFrom s [.work]).map fun s' =>
        (s.shutdownFlag, s.worker, s'.worker, s'.consumers, (s'.unread 0).length)) =
      some (true, .pending [], .done, [0], 1) := by decide +kernel
  obtain ⟨s, hs, hrun⟩ := Option.bind_eq_some_iff.mp hrun
  obtain ⟨s', hs', hvalues⟩ := Option.map_eq_some_iff.mp hrun
  simp only [Prod.mk.injEq] at hvalues
  obtain ⟨hflag, hworker, hdone, hconsumers, hunread⟩ := hvalues
  exact ⟨s, s', hs, hflag, by rw [hworker]; decide, hs', hdone, by rw [hconsumers]; decide, hunread⟩

end Passes

end Insomnilog.Backend

import Insomnilog.Backend.Pass

/-! When the worker yields or sleeps between two passes of `run`. -/
namespace Insomnilog.Backend
open Wire Queue Framing Frontend

variable {t : Target} {cfg : Config t} {level : t.Ptr → LogLevel} {rounds i k : ℕ}
  {r r' : State t}

inductive Idle where
  | yieldNow
  | sleep
  deriving DecidableEq

/-- A pass that began before the flag was seen: the consumers it has visited, and what was unread
when it took the snapshot of them. -/
structure PassRecord (t : Target) where
  consumers : List ℕ
  pending : List (List (Entry t × ℕ))
  didWork : Bool
  idle : Option Idle

/-- `run` with its local variables. `consumers` and `pending` belong to the pass under way, and
`passes` records history. -/
structure Loop (t : Target) where
  runner : State t
  consumers : List ℕ
  pending : List (List (Entry t × ℕ))
  didWork : Bool
  idleStreak : ℕ
  passes : List (PassRecord t)

namespace Loop

/-- `saturating_add` on a `u32`. -/
def saturatingSucc (n : ℕ) : ℕ := min (n + 1) (2 ^ 32 - 1)

/-- The end of a pass. -/
def backOff (rounds : ℕ) (s : Loop t) : Loop t :=
  if s.didWork then
    { s with
      idleStreak := 0
      passes := s.passes ++ [⟨s.consumers, s.pending, true, none⟩] }
  else
    let idleStreak := saturatingSucc s.idleStreak
    let idle := if idleStreak ≤ rounds then Idle.yieldNow else .sleep
    { s with
      idleStreak
      passes := s.passes ++ [⟨s.consumers, s.pending, false, some idle⟩] }

/-- What a step of the worker does to the local variables. -/
def track (rounds : ℕ) (s : Loop t) : Loop t :=
  match s.runner.worker with
  | .snapshot _ =>
      { s with consumers := s.runner.consumers, pending := s.runner.unreads, didWork := false }
  | .advance _ _ _ _ (.ok _) _ => { s with didWork := true }
  | .retire false _ [] => s.backOff rounds
  | _ => s

/-- What the threads do leaves the local variables alone. -/
def step (cfg : Config t) (rounds : ℕ) (s : Loop t) (e : Event t) : Option (Loop t) :=
  (Backend.step cfg s.runner e).map fun r =>
    { (if e = .work then s.track rounds else s) with runner := r }

end Loop

/-- All runs of a backend whose worker yields `rounds` times before it sleeps. -/
def loopSystem (cfg : Config t) (rounds : ℕ) (level : t.Ptr → LogLevel) :
    StepSystem (Loop t) (Event t) where
  init := ⟨(system cfg level).init, [], [], false, 0, []⟩
  step := Loop.step cfg rounds

/-- The passes without work at the end of `passes`. -/
def idleRun (passes : List (PassRecord t)) : ℕ :=
  (passes.reverse.takeWhile fun p => !p.didWork).length

/-- What the worker does after a pass without work, with `n` such passes before it. -/
def idleAfter (rounds n : ℕ) : Idle :=
  if min (n + 1) (2 ^ 32 - 1) ≤ rounds then .yieldNow else .sleep

/-- Thread `i` had nothing to read, or its oldest unread record could not be decoded. -/
def Settled (cfg : Config t) (pending : List (List (Entry t × ℕ))) (i : ℕ) : Prop :=
  ∀ e j es, pending[i]? = some ((e, j) :: es) → ¬ DecodersOk (cfg.decoders i j) e.record.args

/-- The worker idles after the passes that have not given a record to `process_record`, and only
after these. In such a pass it has left nothing behind but records that follow one that could not
be decoded, or that came too late for it. -/
structure Idles (cfg : Config t) (rounds : ℕ) (s : Loop t) : Prop where
  streak : s.idleStreak = min (idleRun s.passes) (2 ^ 32 - 1)
  idle : ∀ before p after, s.passes = before ++ p :: after →
    p.idle = if p.didWork then none else some (idleAfter rounds (idleRun before))
  settled : ∀ p ∈ s.passes, p.didWork = false → ∀ i ∈ p.consumers, Settled cfg p.pending i

section NoWork

/-- What was unread at the snapshot still is. -/
def Waiting (pending : List (List (Entry t × ℕ))) (r : State t) (l : List ℕ) : Prop :=
  ∀ i ∈ l, pending[i]?.getD [] <+: r.unread i

/-- All consumers of the pass are settled, but those in `l`. -/
def SettledBut (cfg : Config t) (consumers : List ℕ) (pending : List (List (Entry t × ℕ)))
    (l : List ℕ) : Prop :=
  ∀ i ∈ consumers, i ∈ l ∨ Settled cfg pending i

/-- Where a pass without work can be. -/
def NoWork (cfg : Config t) (consumers : List ℕ) (pending : List (List (Entry t × ℕ)))
    (r : State t) : Worker t → Prop
  | .visit _ rest => SettledBut cfg consumers pending rest ∧ Waiting pending r rest
  | .poll _ i budget rest => budget = MAX_BATCH_PER_CONSUMER ∧
      SettledBut cfg consumers pending (i :: rest) ∧ Waiting pending r (i :: rest)
  | .peek _ i _ _ rest => SettledBut cfg consumers pending (i :: rest) ∧
      Waiting pending r (i :: rest)
  | .read _ i _ _ rest => SettledBut cfg consumers pending (i :: rest) ∧
      Waiting pending r (i :: rest)
  | .advance _ i _ _ _ rest => SettledBut cfg consumers pending (i :: rest) ∧
      Waiting pending r (i :: rest)
  | .fanout .. => False
  | .retire .. => SettledBut cfg consumers pending []
  | .retireDead .. => SettledBut cfg consumers pending []
  | _ => True

variable {consumers : List ℕ} {pending : List (List (Entry t × ℕ))} {w w' : Worker t}

theorem NoWork.mono (h : NoWork cfg consumers pending r w)
    (hunread : ∀ i, r.unread i <+: r'.unread i) : NoWork cfg consumers pending r' w := by
  have hwaiting {l : List ℕ} (hl : Waiting pending r l) : Waiting pending r' l :=
    fun i hi => (hl i hi).trans (hunread i)
  cases w with
  | visit down rest => exact ⟨h.1, hwaiting h.2⟩
  | poll down i budget rest => exact ⟨h.1, h.2.1, hwaiting h.2.2⟩
  | peek down i budget avail rest => exact ⟨h.1, hwaiting h.2⟩
  | read down i budget totalLen rest => exact ⟨h.1, hwaiting h.2⟩
  | advance down i budget totalLen result rest => exact ⟨h.1, hwaiting h.2⟩
  | _ => exact h

/-- A visit is over, after which thread `i` is settled. -/
theorem SettledBut.tail {rest : List ℕ} (h : SettledBut cfg consumers pending (i :: rest))
    (hi : Settled cfg pending i) : SettledBut cfg consumers pending rest := by
  intro j hj
  rcases h j hj with hmem | hsettled
  · rcases List.mem_cons.mp hmem with rfl | hmem
    · exact .inr hi
    · exact .inl hmem
  · exact .inr hsettled

theorem NoWork.moves (h : NoWork cfg consumers pending r w) (hm : Moves cfg r w w')
    (hs : ∀ down, w ≠ .snapshot down) : NoWork cfg consumers pending r w' := by
  cases hm with
  | snapshot => exact absurd rfl (hs _)
  | visited => exact h.1
  | visit => exact ⟨rfl, h.1, h.2⟩
  | full => cases h.1
  | empty hi =>
    obtain ⟨-, hsettled, hwaiting⟩ := h
    refine ⟨hsettled.tail fun e j es hpending => ?_, fun j hj =>
      hwaiting j (List.mem_cons_of_mem _ hj)⟩
    have hprefix := hwaiting _ List.mem_cons_self
    rw [hi, hpending] at hprefix
    cases List.prefix_nil.mp hprefix
  | poll => exact ⟨h.2.1, h.2.2⟩
  | fannedOut => exact h.elim
  | fanout => exact h.elim
  | peek | read | alive | dead | keep | drop => exact h
  | _ => trivial

/-- A record is taken and given to nobody. -/
theorem NoWork.takes {down : Bool} {j budget totalLen : ℕ} {rest : List ℕ} {e : Entry t}
    {result : Decoded (RawDecodedRecord t)} {es : List (Entry t × ℕ)}
    (h : NoWork cfg consumers pending r (.advance down i budget totalLen result rest))
    (hi : r.unreads[i]? = some ((e, j) :: es)) (hunreads : r'.unreads = r.unreads.set i es)
    (hrest : i ∉ rest) (hbad : ¬ DecodersOk (cfg.decoders i j) e.record.args) :
    NoWork cfg consumers pending r' (.visit down rest) := by
  obtain ⟨hsettled, hwaiting⟩ := h
  constructor
  · refine hsettled.tail fun e' j' es' hpending => ?_
    have hprefix := hwaiting i List.mem_cons_self
    rw [State.unread, hi, hpending] at hprefix
    obtain ⟨rfl, rfl⟩ := Prod.mk.inj (List.cons_prefix_cons.mp hprefix).1
    exact hbad
  · intro m hm
    have hne : i ≠ m := by
      rintro rfl
      exact hrest hm
    rw [State.unread, hunreads, List.getElem?_set_ne hne]
    exact hwaiting m (List.mem_cons_of_mem _ hm)

end NoWork

/-- The end of a read whose decoder has failed. -/
theorem work_advance_err {down : Bool} {budget totalLen : ℕ} {rest : List ℕ}
    {result : Decoded (RawDecodedRecord t)}
    (hs : r.worker = .advance down i budget totalLen result rest)
    (hresult : ∀ raw, result ≠ .ok raw) (hw : r.work cfg = some r') :
    r'.worker = .visit down rest := by
  unfold State.work at hw
  rw [hs] at hw
  obtain ⟨th, -, rfl⟩ := Option.map_eq_some_iff.mp hw
  cases result with
  | ok raw => exact absurd rfl (hresult raw)
  | err e => rfl
  | panic => rfl

section Loop

variable {s s' : Loop t} {e : Event t}

theorem idleRun_concat (passes : List (PassRecord t)) (p : PassRecord t) :
    idleRun (passes ++ [p]) = if p.didWork then 0 else idleRun passes + 1 := by
  unfold idleRun
  rw [List.reverse_concat, List.takeWhile_cons]
  cases p.didWork <;> rfl

/-- A split of a longer list at a place before its end, or at its end. -/
theorem split_concat {α : Type*} {l before after : List α} {a b : α}
    (h : l ++ [b] = before ++ a :: after) :
    (∃ after', l = before ++ a :: after') ∨ l = before ∧ b = a := by
  rcases List.eq_nil_or_concat' after with rfl | ⟨after', c, rfl⟩
  · obtain ⟨rfl, hlast⟩ := List.append_inj' h rfl
    exact .inr ⟨rfl, (List.cons.inj hlast).1⟩
  · rw [← List.cons_append, ← List.append_assoc] at h
    exact .inl ⟨after', (List.append_inj' h rfl).1⟩

/-- The next pass comes to its end. -/
theorem Idles.backOff (h : Idles cfg rounds s)
    (hsettled : s.didWork = false → ∀ i ∈ s.consumers, Settled cfg s.pending i) :
    Idles cfg rounds (s.backOff rounds) := by
  have hstreak := h.streak
  have hconcat {p : PassRecord t}
      (hp : p.idle = if p.didWork then none else some (idleAfter rounds (idleRun s.passes))) :
      ∀ before q after, s.passes ++ [p] = before ++ q :: after →
        q.idle = if q.didWork then none else some (idleAfter rounds (idleRun before)) := by
    intro before q after hsplit
    rcases split_concat hsplit with ⟨after', hpasses⟩ | ⟨rfl, rfl⟩
    · exact h.idle before q after' hpasses
    · exact hp
  unfold Loop.backOff
  split
  next hwork =>
    refine ⟨?_, hconcat rfl, ?_⟩
    · rw [idleRun_concat]
      rfl
    · intro p hp
      rcases List.mem_append.mp hp with hp | hp
      · exact h.settled p hp
      · rw [List.mem_singleton.mp hp]
        exact nofun
  next hwork =>
    have hsucc : Loop.saturatingSucc s.idleStreak = min (idleRun s.passes + 1) (2 ^ 32 - 1) := by
      rw [Loop.saturatingSucc, hstreak]
      omega
    refine ⟨?_, hconcat ?_, ?_⟩
    · rw [idleRun_concat]
      exact hsucc
    · dsimp only
      rw [hsucc]
      rfl
    · intro p hp
      rcases List.mem_append.mp hp with hp | hp
      · exact h.settled p hp
      · rw [List.mem_singleton.mp hp]
        exact fun _ => hsettled (by simpa using hwork)

/-- The local variables have no part in what the worker does. -/
theorem loop_runner (h : (loopSystem cfg rounds level).Reachable s) :
    (system cfg level).Reachable s.runner := by
  refine h.invariant (I := fun u => (system cfg level).Reachable u.runner) .init
    fun u e u' _ hu he => ?_
  obtain ⟨r, hr, rfl⟩ := Option.map_eq_some_iff.mp he
  exact hu.step hr

theorem loop_covers (rounds : ℕ) (h : (system cfg level).Reachable r) :
    ∃ s, (loopSystem cfg rounds level).Reachable s ∧ s.runner = r := by
  refine h.invariant (I := fun r => ∃ s, (loopSystem cfg rounds level).Reachable s ∧ s.runner = r)
    ⟨_, .init, rfl⟩ fun u e u' _ hu he => ?_
  obtain ⟨s, hs, rfl⟩ := hu
  have hstep : (loopSystem cfg rounds level).step s e =
      some { (if e = .work then s.track rounds else s) with runner := u' } :=
    Option.map_eq_some_iff.mpr ⟨u', he, rfl⟩
  exact ⟨_, hs.step hstep, rfl⟩

structure LoopInv (cfg : Config t) (rounds : ℕ) (s : Loop t) : Prop where
  idles : Idles cfg rounds s
  noWork : s.didWork = false → NoWork cfg s.consumers s.pending s.runner s.runner.worker

/-- Only the runner has changed. -/
theorem Idles.withRunner (h : Idles cfg rounds s) (r : State t) :
    Idles cfg rounds { s with runner := r } :=
  ⟨h.streak, h.idle, h.settled⟩

/-- In all other steps of the worker the local variables stay as they are. -/
theorem LoopInv.same (h : LoopInv cfg rounds s) {r : State t}
    (hnoWork : s.didWork = false →
      NoWork cfg s.consumers s.pending s.runner s.runner.worker →
      NoWork cfg s.consumers s.pending r r.worker) :
    LoopInv cfg rounds { s with runner := r } :=
  ⟨h.idles.withRunner r, fun hw => hnoWork hw (h.noWork hw)⟩

theorem LoopInv.moves (h : LoopInv cfg rounds s)
    (hm : Moves cfg s.runner s.runner.worker r.worker) (hunreads : r.unreads = s.runner.unreads) :
    LoopInv cfg rounds { s.track rounds with runner := r } := by
  have hunread (i : ℕ) : s.runner.unread i <+: r.unread i := by
    unfold State.unread
    rw [hunreads]
  by_cases hsnapshot : ∃ down, s.runner.worker = .snapshot down
  · obtain ⟨down, hs⟩ := hsnapshot
    rw [hs] at hm
    generalize hw : r.worker = w at hm
    cases hm
    have htrack : s.track rounds = { s with
        consumers := s.runner.consumers, pending := s.runner.unreads, didWork := false } := by
      unfold Loop.track
      rw [hs]
    rw [htrack]
    refine ⟨⟨h.idles.streak, h.idles.idle, h.idles.settled⟩, fun _ => ?_⟩
    show NoWork cfg s.runner.consumers s.runner.unreads r r.worker
    rw [hw]
    exact ⟨fun i hi => .inl hi, fun i _ => hunread i⟩
  · have hs (down : Bool) : s.runner.worker ≠ .snapshot down := fun hs => hsnapshot ⟨down, hs⟩
    have htrack : s.track rounds = s := by
      unfold Loop.track
      split
      next down hsnap => exact absurd hsnap (hs down)
      next hadvance =>
        rw [hadvance] at hm
        cases hm
      next hretire =>
        rw [hretire] at hm
        cases hm
      next => rfl
    rw [htrack]
    exact h.same fun _ hn => (hn.moves hm hs).mono hunread

theorem LoopInv.work (hr : (system cfg level).Reachable s.runner) (h : LoopInv cfg rounds s)
    (hw : s.runner.work cfg = some r) :
    LoopInv cfg rounds { s.track rounds with runner := r } := by
  obtain ⟨k, hinv⟩ := backend_invariant hr
  cases hinv.turn hw with
  | moves hm hunreads => exact h.moves hm hunreads
  | @takes down i j budget totalLen result rest e es hs hi hunreads hconsumers hnext =>
    by_cases hok : ∃ raw, result = .ok raw
    · obtain ⟨raw, rfl⟩ := hok
      have htrack : s.track rounds = { s with didWork := true } := by
        unfold Loop.track
        rw [hs]
      rw [htrack]
      exact ⟨⟨h.idles.streak, h.idles.idle, h.idles.settled⟩, nofun⟩
    · have herr (raw : RawDecodedRecord t) : result ≠ .ok raw := fun hraw => hok ⟨raw, hraw⟩
      have hvisit := work_advance_err hs herr hw
      have htrack : s.track rounds = s := by
        unfold Loop.track
        rw [hs]
        split
        next hsnap => cases hsnap
        next raw _ hadvance =>
          cases hadvance
          exact absurd rfl (herr raw)
        next hretire => cases hretire
        next => rfl
      rw [htrack]
      refine h.same fun _ hn => ?_
      rw [hs] at hn
      rw [hvisit]
      rcases hnext with ⟨hbad, -⟩ | ⟨f, -, hfanout⟩
      · have hlist := (orderly hr).list.nodup (orderly hr).nodup
        rw [hs] at hlist
        exact hn.takes hi hunreads (List.nodup_cons.mp hlist).1 hbad
      · cases hvisit.symm.trans hfanout
  | @retired down kept hs hunreads hconsumers hnext =>
    have hdone (consumers : List ℕ) (pending : List (List (Entry t × ℕ))) :
        NoWork cfg consumers pending r r.worker := by
      rw [hnext]
      cases down <;> trivial
    cases down with
    | true =>
      have htrack : s.track rounds = s := by
        unfold Loop.track
        rw [hs]
      rw [htrack]
      exact h.same fun _ _ => hdone _ _
    | false =>
      have htrack : s.track rounds = s.backOff rounds := by
        unfold Loop.track
        rw [hs]
      rw [htrack]
      refine ⟨(h.idles.backOff fun hwork i hi => ?_).withRunner r, fun _ => hdone _ _⟩
      have hn := h.noWork hwork
      rw [hs] at hn
      exact (hn i hi).resolve_left List.not_mem_nil

theorem LoopInv.step (hs : (loopSystem cfg rounds level).Reachable s) (h : LoopInv cfg rounds s)
    {e : Event t} (he : s.step cfg rounds e = some s') : LoopInv cfg rounds s' := by
  have hr := loop_runner hs
  obtain ⟨k, hinv⟩ := backend_invariant hr
  obtain ⟨r, hstep, rfl⟩ := Option.map_eq_some_iff.mp he
  by_cases hwork : e = .work
  · subst hwork
    rw [if_pos rfl]
    exact h.work hr hstep
  · have haside := hinv.aside hstep hwork
    rw [if_neg hwork]
    refine h.same fun _ hn => ?_
    rw [haside.worker]
    exact hn.mono haside.unread

theorem loop_idles (h : (loopSystem cfg rounds level).Reachable s) : Idles cfg rounds s := by
  have hinit : LoopInv cfg rounds (loopSystem cfg rounds level).init := by
    refine ⟨⟨rfl, fun before p after hsplit => ?_, fun p hp => ?_⟩, fun _ => trivial⟩
    · cases before <;> cases hsplit
    · cases hp
  have hinv := h.invariant hinit fun u e u' hu hI he => LoopInv.step hu hI he
  exact hinv.idles

/-- The runs with the local variables are those of the backend, and in all of them the worker does
not go to sleep over records that it can decode. -/
theorem idles_without_work (cfg : Config t) (rounds : ℕ) (level : t.Ptr → LogLevel) :
    (∀ s, (loopSystem cfg rounds level).Reachable s →
      (system cfg level).Reachable s.runner ∧ Idles cfg rounds s) ∧
    ∀ r, (system cfg level).Reachable r →
      ∃ s, (loopSystem cfg rounds level).Reachable s ∧ s.runner = r :=
  ⟨fun _ h => ⟨loop_runner h, loop_idles h⟩, fun _ h => loop_covers rounds h⟩

end Loop

/-- The first record that a thread logs cannot be decoded. The worker yields before it takes the
second one. -/
theorem idles_without_work_undecodable :
    let cfg := smallConfig fun decoder => if decoder = 1 then .err () else .ok "two"
    let events := .spawn :: .register 0 ::
      (logCall 0 (customRecord 1) ++ logCall 0 (customRecord 2) ++ .replicate 24 .work)
    ∃ s, (loopSystem cfg 1 fun _ => .trace).run events = some s ∧
      (s.passes.take 2).map (fun p => (p.pending.map List.length, p.didWork, p.idle)) =
        [([2], false, some .yieldNow), ([1], true, none)] ∧
      Idles cfg 1 s := by
  intro cfg events
  have hrun : ((loopSystem cfg 1 fun _ => .trace).run events).map (fun s =>
      (s.passes.take 2).map fun p => (p.pending.map List.length, p.didWork, p.idle)) =
      some [([2], false, some .yieldNow), ([1], true, none)] := by decide +kernel
  obtain ⟨s, hs, hpasses⟩ := Option.map_eq_some_iff.mp hrun
  exact ⟨s, hs, hpasses, ((idles_without_work cfg 1 _).1 s ⟨_, hs⟩).2⟩

end Insomnilog.Backend

import Insomnilog.Registry.System

/-! Who holds the references to loggers and sinks. The registry owns a reference to every
logger that is alive, so that no drop frees one. -/
namespace Insomnilog.Registry
open Wire Frontend Backend

variable {t : Target} {s s' : World t} {a : t.Ptr} {b : ℕ} {name : String} {sinks : List ℕ}
  {lvl : LogLevel}

/-- The references to loggers: those of user code, and one for each entry. -/
def loggerOwners (s : World t) : List t.Ptr := s.heldLoggers ++ s.loggers.values

/-- The references to sinks that the registered loggers hold. -/
def loggerSinks (s : World t) : List ℕ := s.loggers.values.flatMap fun a => (s.loggerAt a).sinks

/-- The references to sinks: those of user code, of calls under way, of the entries and of
the loggers. -/
def sinkOwners (s : World t) : List ℕ :=
  s.heldSinks ++ (s.creating.toList.flatMap Prod.fst ++ (s.registering.toList ++
    (s.sinks.values ++ loggerSinks s)))

structure Owners (s : World t) : Prop where
  loggers : s.loggers.Inv
  sinks : s.sinks.Inv
  creating : s.creating.isSome = s.loggers.writer.isSome
  registering : s.registering.isSome = s.sinks.writer.isSome
  loggerCounts : s.loggerHeap.Counts (loggerOwners s)
  sinkCounts : s.sinkHeap.Counts (sinkOwners s)
  held : ∀ a ∈ s.heldLoggers, a ∈ s.loggers.values
  named : ∀ name a, s.loggers.find name = some a → ∃ l, s.deref a = some l ∧ l.name = name

/-- What a step leaves as it is: the entries, and the loggers that are alive. -/
structure Kept (s s' : World t) : Prop where
  loggers : ∀ name a, s.loggers.find name = some a → s'.loggers.find name = some a
  sinks : ∀ name b, s.sinks.find name = some b → s'.sinks.find name = some b
  deref : ∀ a l, s.deref a = some l → s'.deref a = some l

theorem Kept.of_eq (hloggers : s'.loggers = s.loggers) (hsinks : s'.sinks = s.sinks)
    (hheap : s'.loggerHeap = s.loggerHeap) : Kept s s' where
  loggers name a hf := by rwa [hloggers]
  sinks name b hf := by rwa [hsinks]
  deref a l hl := by rwa [World.deref, hheap]

theorem Kept.refl (s : World t) : Kept s s := .of_eq rfl rfl rfl

theorem Kept.trans {s'' : World t} (h : Kept s s') (h' : Kept s' s'') : Kept s s'' where
  loggers name a hf := h'.loggers name a (h.loggers name a hf)
  sinks name b hf := h'.sinks name b (h.sinks name b hf)
  deref a l hd := h'.deref a l (h.deref a l hd)

/-- A step that leaves the backend alone as well. -/
structure Aside (s s' : World t) : Prop extends Kept s s' where
  backend : s'.backend = s.backend
  dangling : s'.dangling = s.dangling

namespace Owners

/-- Every logger that is alive is registered. -/
theorem registered (h : Owners s) {l : Logger} (ha : s.deref a = some l) :
    s.loggers.find l.name = some a := by
  have hmem : a ∈ s.loggers.values := by
    rcases List.mem_append.mp (h.loggerCounts.owned ha) with hheld | hmem
    · exact h.held a hheld
    · exact hmem
  obtain ⟨name, hfind⟩ := h.loggers.find_of_mem hmem
  obtain ⟨l', hl', rfl⟩ := h.named name a hfind
  obtain rfl := Option.some.inj (ha.symm.trans hl')
  exact hfind

theorem alive (h : Owners s) (ha : a ∈ s.loggers.values) : ∃ l, s.deref a = some l :=
  h.loggerCounts.alive (List.mem_append_right _ ha)

/-- The sinks of a logger that is alive are alive. -/
theorem sinks_alive (h : Owners s) {l : Logger} (ha : s.deref a = some l) (hb : b ∈ l.sinks) :
    (s.sinkHeap.value b).isSome := by
  have hmem : b ∈ sinkOwners s := by
    have hsink : b ∈ loggerSinks s := by
      refine List.mem_flatMap.mpr ⟨a, LockedMap.mem_values (h.registered ha), ?_⟩
      simpa [World.loggerAt, ha] using hb
    simp [sinkOwners, hsink]
  obtain ⟨u, hu⟩ := h.sinkCounts.alive hmem
  rw [hu]
  rfl

/-- A step that leaves the loggers alive and their registry as they are. -/
theorem keep (h : Owners s) (hderef : ∀ a, s'.deref a = s.deref a)
    (hvalues : s'.loggers.values = s.loggers.values)
    (hfind : ∀ name, s'.loggers.find name = s.loggers.find name) (hinv : s'.loggers.Inv)
    (hsinks : s'.sinks.Inv) (hcreating : s'.creating.isSome = s'.loggers.writer.isSome)
    (hregistering : s'.registering.isSome = s'.sinks.writer.isSome)
    (hcounts : s'.loggerHeap.Counts (s'.heldLoggers ++ s.loggers.values))
    (hsinkCounts : s'.sinkHeap.Counts (s'.heldSinks ++ (s'.creating.toList.flatMap Prod.fst ++
      (s'.registering.toList ++ (s'.sinks.values ++ loggerSinks s)))))
    (hheld : ∀ a ∈ s'.heldLoggers, a ∈ s.loggers.values) : Owners s' := by
  have hsame : loggerSinks s' = loggerSinks s := by
    simp only [loggerSinks, hvalues, World.loggerAt, hderef]
  refine ⟨hinv, hsinks, hcreating, hregistering, ?_, ?_, ?_, fun name a hf => ?_⟩
  · rw [loggerOwners, hvalues]
    exact hcounts
  · rw [sinkOwners, hsame]
    exact hsinkCounts
  · rw [hvalues]
    exact hheld
  · rw [hfind] at hf
    rw [hderef]
    exact h.named name a hf

/-- A reference to a registered logger is handed out. -/
theorem hands_out (h : Owners s) {registry : LockedMap String t.Ptr} (hinv : registry.Inv)
    (hvalues : registry.values = s.loggers.values)
    (hfind : ∀ name, registry.find name = s.loggers.find name) (ha : a ∈ s.loggers.values)
    (hcreating : s.creating.isSome = registry.writer.isSome) :
    Owners { s with
      loggers := registry
      loggerHeap := s.loggerHeap.clone a
      heldLoggers := a :: s.heldLoggers } := by
  apply h.keep
  · exact RefHeap.value_clone s.loggerHeap a
  · exact hvalues
  · exact hfind
  · exact hinv
  · exact h.sinks
  · exact hcreating
  · exact h.registering
  · exact h.loggerCounts.clone (List.mem_append_right _ ha)
  · exact h.sinkCounts
  · intro a' ha'
    rcases List.mem_cons.mp ha' with rfl | ha'
    · exact ha
    · exact h.held a' ha'

/-- The sinks moved into a call leave the hands of its caller. -/
theorem perm_diff (hs : sinks.Subperm s.heldSinks) :
    s.heldSinks.Perm (sinks ++ s.heldSinks.diff sinks) :=
  (List.subperm_append_diff_self_of_count_le fun b _ => List.subperm_iff_count.mp hs b).symm

theorem createLookup (h : Owners s) (hw : s.loggers.writer = none)
    (hs : sinks.Subperm s.heldSinks) : Owners (s.createLookup name sinks lvl) := by
  have hnone : s.creating = none := by
    have hcreating := h.creating
    rw [hw] at hcreating
    simpa using hcreating
  unfold World.createLookup
  dsimp only
  split
  next existing hfind =>
    have h' := h.hands_out (h.loggers.lookup name) (s.loggers.values_lookup name)
      (s.loggers.find_lookup name) (LockedMap.mem_values hfind)
      (by rw [LockedMap.lookup_of_some hfind]; exact h.creating)
    refine { h' with sinkCounts := RefHeap.Counts.dropAll (h'.sinkCounts.perm ?_) }
    apply ((perm_diff hs).append_right _).trans
    rw [List.append_assoc]
    exact .refl _
  next hfind =>
    apply h.keep
    · exact fun _ => rfl
    · exact LockedMap.values_lookup s.loggers name
    · exact LockedMap.find_lookup s.loggers name
    · exact h.loggers.lookup name
    · exact h.sinks
    · rw [LockedMap.lookup_of_none hfind]
      rfl
    · exact h.registering
    · exact h.loggerCounts
    · apply h.sinkCounts.perm
      apply List.perm_iff_count.mpr
      intro b
      have hcount := (perm_diff hs).count_eq b
      simp only [sinkOwners, List.count_append, hnone, Option.toList_none, List.flatMap_nil,
        Option.toList_some, List.flatMap_cons, List.count_nil] at hcount ⊢
      omega
    · exact h.held

/-- The name is still free when the lock holder inserts, and nothing is replaced. -/
theorem createInsert_eq (h : Owners s) (hw : s.loggers.writer = some name) :
    s.createInsert name sinks lvl a = { s with
      loggers := s.loggers.insert name a
      loggerHeap := (s.loggerHeap.alloc a ⟨name, sinks⟩).clone a
      creating := none
      heldLoggers := a :: s.heldLoggers
      backend := { s.backend with level := Function.update s.backend.level a lvl } } := by
  simp only [World.createInsert, h.loggers.writer name hw]

theorem kept_createInsert (h : Owners s) (hw : s.loggers.writer = some name)
    (ha : s.loggerHeap.cell a = none) : Kept s (s.createInsert name sinks lvl a) := by
  rw [h.createInsert_eq hw]
  refine ⟨fun _ _ => h.loggers.find_mono hw a, fun _ _ => id, fun a' l hl => ?_⟩
  exact (RefHeap.value_clone _ _ _).trans (RefHeap.value_alloc ha hl _)

/-- The sinks of the call become those of the new logger. -/
theorem loggerSinks_createInsert (h : Owners s) (hw : s.loggers.writer = some name)
    (ha : s.loggerHeap.cell a = none) :
    loggerSinks (s.createInsert name sinks lvl a) = sinks ++ loggerSinks s := by
  have hkept : Kept s (s.createInsert name sinks lvl a) := h.kept_createInsert hw ha
  have hnew : (s.createInsert name sinks lvl a).deref a = some ⟨name, sinks⟩ := by
    rw [h.createInsert_eq hw]
    exact (RefHeap.value_clone _ _ _).trans (RefHeap.value_alloc_self _ _ _)
  have hvalues : (s.createInsert name sinks lvl a).loggers.values = a :: s.loggers.values := by
    rw [h.createInsert_eq hw]
    exact h.loggers.values_insert hw a
  simp only [loggerSinks, hvalues, List.flatMap_cons, World.loggerAt, hnew, Option.getD_some]
  congr 1
  apply List.flatMap_congr
  intro a' ha'
  obtain ⟨l, hl⟩ := h.alive ha'
  rw [hl, hkept.deref a' l hl]

theorem createInsert (h : Owners s) (hw : s.loggers.writer = some name)
    (hc : s.creating = some (sinks, lvl)) (ha : s.loggerHeap.cell a = none) :
    Owners (s.createInsert name sinks lvl a) := by
  have hkept : Kept s (s.createInsert name sinks lvl a) := h.kept_createInsert hw ha
  have hsinks : loggerSinks (s.createInsert name sinks lvl a) = sinks ++ loggerSinks s :=
    h.loggerSinks_createInsert hw ha
  have hvalues := h.loggers.values_insert hw a
  rw [h.createInsert_eq hw] at hkept hsinks ⊢
  refine
    { loggers := h.loggers.insert hw a
      sinks := h.sinks
      creating := rfl
      registering := h.registering
      loggerCounts := ?_
      sinkCounts := ?_
      held := fun a' ha' => ?_
      named := fun name' a' hf => ?_ }
  · have hcounts := (h.loggerCounts.alloc ha ⟨name, sinks⟩).clone List.mem_cons_self
    apply hcounts.perm
    apply List.perm_iff_count.mpr
    intro b
    simp only [loggerOwners, hvalues, List.count_append, List.count_cons]
    omega
  · apply h.sinkCounts.perm
    apply List.perm_iff_count.mpr
    intro b
    simp only [sinkOwners, hsinks, List.count_append, hc, Option.toList_none, List.flatMap_nil,
      Option.toList_some, List.flatMap_cons, List.count_nil]
    omega
  · rw [hvalues]
    rcases List.mem_cons.mp ha' with rfl | ha'
    · exact List.mem_cons_self
    · exact List.mem_cons_of_mem a (h.held a' ha')
  · rw [h.loggers.find_insert hw] at hf
    split at hf
    next hn =>
      obtain rfl := Option.some.inj hf
      exact ⟨⟨name, sinks⟩, (RefHeap.value_clone _ _ _).trans (RefHeap.value_alloc_self _ _ _),
        hn.symm⟩
    · obtain ⟨l, hl, hname⟩ := h.named name' a' hf
      exact ⟨l, hkept.deref a' l hl, hname⟩

theorem getLogger (h : Owners s) : Owners (s.getLogger name) := by
  unfold World.getLogger
  dsimp only
  split
  next a hfind =>
    exact h.hands_out (h.loggers.get name) rfl (fun _ => rfl) (LockedMap.mem_values hfind)
      h.creating
  next => exact { h with loggers := h.loggers.get name }

/-- A step that touches only sinks and their registry. -/
theorem keep_sinks (h : Owners s) {registry : LockedMap String ℕ} {heap : RefHeap ℕ Unit}
    {registering : Option ℕ} {held : List ℕ} (hinv : registry.Inv)
    (hreg : registering.isSome = registry.writer.isSome)
    (hcounts : heap.Counts (held ++ (s.creating.toList.flatMap Prod.fst ++ (registering.toList ++
      (registry.values ++ loggerSinks s))))) :
    Owners { s with sinks := registry, sinkHeap := heap, registering, heldSinks := held } :=
  { h with sinks := hinv, registering := hreg, sinkCounts := hcounts }

theorem registerLookup (h : Owners s) (hw : s.sinks.writer = none) (hb : b ∈ s.heldSinks) :
    Owners (s.registerLookup name b) := by
  have hnone : s.registering = none := by
    have hregistering := h.registering
    rw [hw] at hregistering
    simpa using hregistering
  have hcount (b' : ℕ) : s.heldSinks.count b' = (b :: s.heldSinks.erase b).count b' :=
    (List.perm_cons_erase hb).count_eq b'
  unfold World.registerLookup
  dsimp only
  split
  next existing hfind =>
    have hmem : existing ∈ sinkOwners s := by
      simp [sinkOwners, LockedMap.mem_values hfind]
    apply h.keep_sinks (h.sinks.lookup name)
    · rw [LockedMap.lookup_of_some hfind]
      exact h.registering
    · apply RefHeap.Counts.drop
      apply (h.sinkCounts.clone hmem).perm
      apply List.perm_iff_count.mpr
      intro b'
      have hcount := hcount b'
      simp only [List.count_cons] at hcount
      simp only [sinkOwners, List.count_append, List.count_cons, LockedMap.values_lookup]
      omega
  next hfind =>
    apply h.keep_sinks (h.sinks.lookup name)
    · rw [LockedMap.lookup_of_none hfind]
      rfl
    · apply h.sinkCounts.perm
      apply List.perm_iff_count.mpr
      intro b'
      have hcount := hcount b'
      simp only [List.count_cons] at hcount
      simp only [sinkOwners, List.count_append, List.count_cons, LockedMap.values_lookup, hnone,
        Option.toList_none, Option.toList_some, List.count_nil]
      omega

theorem registerInsert (h : Owners s) (hw : s.sinks.writer = some name)
    (hr : s.registering = some b) : Owners (s.registerInsert name b) := by
  unfold World.registerInsert
  rw [h.sinks.writer name hw]
  apply h.keep_sinks (h.sinks.insert hw b) rfl
  apply h.sinkCounts.perm
  apply List.perm_iff_count.mpr
  intro b'
  simp only [sinkOwners, List.count_append, List.count_cons, h.sinks.values_insert hw, hr,
    Option.toList_none, Option.toList_some, List.count_nil]
  omega

theorem getSink (h : Owners s) : Owners (s.getSink name) := by
  unfold World.getSink
  dsimp only
  split
  next b hfind =>
    have hmem : b ∈ sinkOwners s := by
      simp [sinkOwners, LockedMap.mem_values hfind]
    exact h.keep_sinks (h.sinks.get name) h.registering (h.sinkCounts.clone hmem)
  next => exact h.keep_sinks (h.sinks.get name) h.registering h.sinkCounts

/-- A reference of user code is dropped. The one in the registry keeps the logger alive. -/
theorem dropLogger (h : Owners s) (ha : a ∈ s.heldLoggers) :
    Owners { s.releaseLogger a with heldLoggers := s.heldLoggers.erase a } ∧
      Kept s { s.releaseLogger a with heldLoggers := s.heldLoggers.erase a } := by
  have hmem := h.held a ha
  have hcounts : s.loggerHeap.Counts (a :: (s.heldLoggers.erase a ++ s.loggers.values)) :=
    h.loggerCounts.perm ((List.perm_cons_erase ha).append_right s.loggers.values)
  have hderef (a' : t.Ptr) : (s.loggerHeap.drop a).value a' = s.deref a' := by
    by_cases haa : a' = a
    · subst haa
      exact hcounts.value_drop (List.mem_append_right _ hmem)
    · exact RefHeap.value_drop_of_ne haa
  obtain ⟨l, hl⟩ := h.alive hmem
  have hsinks : (s.releaseLogger a).sinkHeap = s.sinkHeap := by
    simp only [World.releaseLogger, hderef, hl]
  constructor
  · apply h.keep
    · exact hderef
    · rfl
    · exact fun _ => rfl
    · exact h.loggers
    · exact h.sinks
    · exact h.creating
    · exact h.registering
    · exact hcounts.drop
    · rw [hsinks]
      exact h.sinkCounts
    · exact fun a' ha' => h.held a' (List.mem_of_mem_erase ha')
  · exact ⟨fun _ _ => id, fun _ _ => id, fun a' l' hl' => (hderef a').trans hl'⟩

end Owners

theorem aside_createLookup (s : World t) (name : String) (sinks : List ℕ) (lvl : LogLevel) :
    Aside s (s.createLookup name sinks lvl) := by
  have hfind (name' : String) (a : t.Ptr) (hf : s.loggers.find name' = some a) :
      (s.loggers.lookup name).find name' = some a := (s.loggers.find_lookup name name').trans hf
  unfold World.createLookup
  dsimp only
  split
  · exact ⟨⟨hfind, fun _ _ => id, fun a l hl => (RefHeap.value_clone _ _ _).trans hl⟩, rfl, rfl⟩
  · exact ⟨⟨hfind, fun _ _ => id, fun _ _ => id⟩, rfl, rfl⟩

theorem aside_getLogger (s : World t) (name : String) : Aside s (s.getLogger name) := by
  unfold World.getLogger
  dsimp only
  split
  · exact ⟨⟨fun _ _ => id, fun _ _ => id, fun a l hl => (RefHeap.value_clone _ _ _).trans hl⟩,
      rfl, rfl⟩
  · exact ⟨⟨fun _ _ => id, fun _ _ => id, fun _ _ => id⟩, rfl, rfl⟩

theorem aside_registerLookup (s : World t) (name : String) (b : ℕ) :
    Aside s (s.registerLookup name b) := by
  have hfind (name' : String) (b' : ℕ) (hf : s.sinks.find name' = some b') :
      (s.sinks.lookup name).find name' = some b' := (s.sinks.find_lookup name name').trans hf
  unfold World.registerLookup
  dsimp only
  split <;> exact ⟨⟨fun _ _ => id, hfind, fun _ _ => id⟩, rfl, rfl⟩

theorem aside_getSink (s : World t) (name : String) : Aside s (s.getSink name) := by
  unfold World.getSink
  dsimp only
  split <;> exact ⟨⟨fun _ _ => id, fun _ _ => id, fun _ _ => id⟩, rfl, rfl⟩

variable {cfg : Config t} {e : Event t}

theorem Owners.step (h : Owners s) (he : step cfg s e = some s') : Owners s' ∧ Kept s s' := by
  cases e with
  | createLookup name sinks level =>
    obtain ⟨⟨hw, hs⟩, he⟩ := Option.ite_none_right_eq_some.mp he
    obtain rfl := Option.some.inj he
    exact ⟨h.createLookup hw hs, (aside_createLookup s name sinks level).toKept⟩
  | createInsert a =>
    simp only [Registry.step] at he
    split at he
    next name sinks level hw hc =>
      obtain ⟨ha, he⟩ := Option.ite_none_right_eq_some.mp he
      obtain rfl := Option.some.inj he
      exact ⟨h.createInsert hw hc ha, h.kept_createInsert hw ha⟩
    · cases he
  | getLogger name =>
    obtain ⟨-, he⟩ := Option.ite_none_right_eq_some.mp he
    obtain rfl := Option.some.inj he
    exact ⟨h.getLogger, (aside_getLogger s name).toKept⟩
  | registerLookup name b =>
    obtain ⟨⟨hw, hb⟩, he⟩ := Option.ite_none_right_eq_some.mp he
    obtain rfl := Option.some.inj he
    exact ⟨h.registerLookup hw hb, (aside_registerLookup s name b).toKept⟩
  | registerInsert =>
    simp only [Registry.step] at he
    split at he
    next name b hw hr =>
      obtain rfl := Option.some.inj he
      exact ⟨h.registerInsert hw hr, fun _ _ => id, fun _ _ => h.sinks.find_mono hw b,
        fun _ _ => id⟩
    · cases he
  | getSink name =>
    obtain ⟨-, he⟩ := Option.ite_none_right_eq_some.mp he
    obtain rfl := Option.some.inj he
    exact ⟨h.getSink, (aside_getSink s name).toKept⟩
  | newSink b =>
    obtain ⟨hb, he⟩ := Option.ite_none_right_eq_some.mp he
    obtain rfl := Option.some.inj he
    exact ⟨h.keep_sinks h.sinks h.registering (h.sinkCounts.alloc hb ()), .of_eq rfl rfl rfl⟩
  | cloneLogger a =>
    obtain ⟨ha, he⟩ := Option.ite_none_right_eq_some.mp he
    obtain rfl := Option.some.inj he
    exact ⟨h.hands_out h.loggers rfl (fun _ => rfl) (h.held a ha) h.creating,
      fun _ _ => id, fun _ _ => id, fun a' l hl => (RefHeap.value_clone _ _ _).trans hl⟩
  | dropLogger a =>
    obtain ⟨ha, he⟩ := Option.ite_none_right_eq_some.mp he
    obtain rfl := Option.some.inj he
    exact h.dropLogger ha
  | cloneSink b =>
    obtain ⟨hb, he⟩ := Option.ite_none_right_eq_some.mp he
    obtain rfl := Option.some.inj he
    have hmem : b ∈ sinkOwners s := by simp [sinkOwners, hb]
    exact ⟨h.keep_sinks h.sinks h.registering (h.sinkCounts.clone hmem), .of_eq rfl rfl rfl⟩
  | dropSink b =>
    obtain ⟨hb, he⟩ := Option.ite_none_right_eq_some.mp he
    obtain rfl := Option.some.inj he
    refine ⟨h.keep_sinks h.sinks h.registering ?_, .of_eq rfl rfl rfl⟩
    apply RefHeap.Counts.drop
    apply h.sinkCounts.perm
    apply List.perm_iff_count.mpr
    intro b'
    have hcount := (List.perm_cons_erase hb).count_eq b'
    simp only [List.count_cons] at hcount
    simp only [sinkOwners, List.count_append, List.count_cons]
    omega
  | setLevel a level =>
    obtain ⟨-, he⟩ := Option.ite_none_right_eq_some.mp he
    obtain rfl := Option.some.inj he
    exact ⟨{ h with }, .of_eq rfl rfl rfl⟩
  | runner e =>
    obtain ⟨-, he⟩ := Option.ite_none_right_eq_some.mp he
    obtain ⟨b, -, rfl⟩ := Option.map_eq_some_iff.mp he
    exact ⟨{ h with }, .of_eq rfl rfl rfl⟩

end Insomnilog.Registry

import Insomnilog.Visibility.Races

/-! Stores keep the invariant, and so does every step. -/
namespace Insomnilog.Visibility
open ByteStore Queue ReleaseAcquire RingPosition

variable {w k : ℕ} {s s' : State w}

section Stores
variable {written : List Chunk} {taken reserved : ℕ} {o : StoreOrder} {a : Thread} {l : Location}
  {v : l.Value w} {memory : Memory Location Thread ℕ (Location.Value w)}

/-- A store to another location. -/
theorem Histories.store (h : Histories written taken memory) (hwrite : Location.writePos ≠ l)
    (hread : Location.readPos ≠ l) : Histories written taken (memory.store o a l v) := by
  constructor
  · rw [Memory.store_history_of_ne _ _ _ _ hwrite]
    exact h.writes
  · rw [Memory.store_history_of_ne _ _ _ _ hread]
    exact h.reads
  · rw [Memory.store_history_of_ne _ _ _ _ hwrite]
    exact h.write
  · rw [Memory.store_history_of_ne _ _ _ _ hread]
    exact h.read

theorem Accesses.store (h : Accesses k written taken reserved memory)
    (hwrite : Location.writePos ≠ l) (hread : Location.readPos ≠ l) :
    Accesses k written taken reserved (memory.store o a l v) := by
  refine ⟨h.closer, fun n x hx => ?_, fun n x hx => ?_⟩
  · obtain ⟨i, hi, hhanded⟩ := h.producer n x hx
    exact ⟨i, hi, hhanded.store_of_ne o a v hwrite⟩
  · obtain ⟨hkind, i, hle, hlt, hi, hhanded⟩ := h.worker n x hx
    exact ⟨hkind, i, hle, hlt, hi, hhanded.store_of_ne o a v hread⟩

/-- With the commit of a chunk, its bytes are handed on. -/
theorem Accesses.commit (h : Accesses k written taken reserved memory) (hclocked : memory.Clocked)
    {c : Chunk} (hc : c.len = reserved) (writePos : BitVec w) :
    Accesses k (written ++ [c]) taken 0 (memory.store .release .producer .writePos writePos) := by
  refine ⟨h.closer, fun n x hx => ?_, fun n x hx => ?_⟩
  · obtain ⟨i, hi, hhanded⟩ := h.producer n x hx
    have hn := (List.getElem?_eq_some_iff.mp hx).choose
    exact ⟨i, hi.commit hc, hhanded.release hclocked hn writePos⟩
  · obtain ⟨hkind, i, hle, hlt, hi, hhanded⟩ := h.worker n x hx
    refine ⟨hkind, i, hle, ?_, hi.commit hc, hhanded.store_of_ne _ _ _ nofun⟩
    rw [List.length_append]
    exact hlt.trans_le (Nat.le_add_right _ _)

/-- With the end of a read, its bytes are handed back. -/
theorem Accesses.release (h : Accesses k written taken reserved memory)
    (hclocked : memory.Clocked) (readPos : BitVec w) :
    Accesses k written (taken + 1) reserved
      (memory.store .release .worker .readPos readPos) := by
  refine ⟨h.closer, fun n x hx => ?_, fun n x hx => ?_⟩
  · obtain ⟨i, hi, hhanded⟩ := h.producer n x hx
    exact ⟨i, hi, hhanded.store_of_ne _ _ _ nofun⟩
  · obtain ⟨hkind, i, hle, hlt, hi, hhanded⟩ := h.worker n x hx
    have hn := (List.getElem?_eq_some_iff.mp hx).choose
    exact ⟨hkind, i, hle.trans (Nat.le_succ _), hlt, hi, hhanded.release hclocked hn readPos⟩

end Stores

theorem Caches.put {o : Location → Orders} (h : Caches k s) (a : Thread) (l : Location)
    (v : l.Value w) : Caches k (s.put o a l v) := by
  obtain ⟨⟨r, hr, hproducer⟩, j, hj, hworker⟩ := h
  exact ⟨⟨r, hr.store _ a l v, hproducer⟩, j, hj.store _ a l v, hworker⟩

namespace Visible

/-- The producer half is dropped. What it has committed is known to whoever finds `alive`
cleared. -/
theorem drop (h : Visible k s) (hidle : s.queue.producer = .idle) (halive : s.alive = true) :
    Visible k { s.put inCode .producer .alive false with alive := false } := by
  have hseen (b : Thread) := View.seen_mono (s.memory.le_raise .producer b
    (.upTo .alive (s.memory.history .alive).length)) .writePos
  have hcaches := h.caches.put (o := inCode) .producer .alive false
  have hlive (hf : s.alive = false) {P : Prop} : P := by
    rw [halive] at hf
    cases hf
  exact
    { queue := h.queue
      clocked := h.clocked.store _ _ _ _
      closed := h.closed.store _ _ _ _
      raceFree := h.raceFree
      histories := h.histories.store nofun nofun
      accesses := h.accesses.store nofun nofun
      caches := ⟨hcaches.producer, hcaches.worker⟩
      flags :=
        { commits := h.flags.commits.trans (hseen .producer)
          idle := fun _ => hidle
          cleared := by
            intro n msg hmsg hvalue
            rcases Memory.store_message hmsg with hold | ⟨-, -, hview⟩
            · exact hlive (h.flags.cleared n msg hold hvalue).1
            · refine ⟨rfl, ?_⟩
              rw [hview, View.sup_seen]
              exact h.flags.commits.trans (le_max_right _ _)
          dead := fun hd => hlive (h.flags.dead hd).1
          retired := fun hr => hlive (h.flags.retired hr).1
          promises := h.flags.promises
          promised := h.flags.promised
          heard := h.flags.heard.trans (hseen .worker)
          stopped := h.flags.stopped } }

/-- The flag is stored. What the closer knows to be committed is known to whoever finds it set. -/
theorem shutdown (h : Visible k s) :
    Visible k { s.put inCode .closer .shutdownFlag true with
      promised := s.promised ++ [(s.memory.view .closer).seen .writePos] } := by
  have hseen (b : Thread) := View.seen_mono (s.memory.le_raise .closer b
    (.upTo .shutdownFlag (s.memory.history .shutdownFlag).length)) .writePos
  have hcaches := h.caches.put (o := inCode) .closer .shutdownFlag true
  exact
    { queue := h.queue
      clocked := h.clocked.store _ _ _ _
      closed := h.closed.store _ _ _ _
      raceFree := h.raceFree
      histories := h.histories.store nofun nofun
      accesses := h.accesses.store nofun nofun
      caches := ⟨hcaches.producer, hcaches.worker⟩
      flags :=
        { commits := h.flags.commits.trans (hseen .producer)
          idle := h.flags.idle
          cleared := h.flags.cleared
          dead := fun hd => ⟨(h.flags.dead hd).1, (h.flags.dead hd).2.trans (hseen .worker)⟩
          retired := h.flags.retired
          promises := by
            show _ = ((s.memory.store _ _ _ _).history .shutdownFlag).length
            rw [Memory.store_history, List.length_append, List.length_append, h.flags.promises]
            rfl
          promised := by
            intro n msg p hmsg hp
            have hlength := h.flags.promises
            rcases Memory.store_message hmsg with hold | ⟨rfl, -, hview⟩
            · have hn := (List.getElem?_eq_some_iff.mp hold).choose
              rw [List.getElem?_append_left (hlength ▸ hn)] at hp
              exact h.flags.promised n msg p hold hp
            · rw [← hlength, List.getElem?_concat_length] at hp
              cases hp
              rw [hview, View.sup_seen]
              exact le_max_right _ _
          heard := h.flags.heard.trans (hseen .worker)
          stopped := h.flags.stopped } }

theorem heard_le (h : Visible k s) : s.heard ≤ s.queue.written.length := by
  have hclosed := h.closed.view .worker .writePos
  rw [h.histories.writes] at hclosed
  exact h.flags.heard.trans (Nat.le_of_lt_succ hclosed)

theorem commit (h : Visible k s) {off : ℕ} {n : BitVec w} {bytes : List UInt8}
    (hp : s.queue.producer = .returned off n bytes) :
    Visible k (State.put inCode { s with queue := s.queue.commit off n bytes } .producer .writePos
      (s.queue.commit off n bytes).q.inner.writePos) := by
  have hqueue := h.queue.commit hp
  have hprod := h.queue.producer
  have hq := h.queue.queue
  have haccesses := h.accesses
  obtain ⟨⟨r, hr, hcached, hroom⟩, j, hj, hworker⟩ := h.caches
  simp only [ProducerOk, hp] at hprod
  rw [hp] at hq haccesses hroom
  have hlen : (⟨off, bytes⟩ : Chunk).len = n.toNat := by
    show bytes.length = n.toNat
    rw [← hprod.2, hprod.1]
    exact slice_length_of_le hq.reserved_fits
  have hlive (hf : s.alive = false) {P : Prop} : P := by
    have hidle := h.flags.idle hf
    rw [hp] at hidle
    cases hidle
  have htaken := hq.taken_le
  have hstart {i : ℕ} (hi : i ≤ s.queue.written.length) := start_append ⟨off, bytes⟩ hi
  have hrle := (h.histories.read_le hr).trans htaken
  have hjle := h.histories.write_le hj
  have hseen (b : Thread) := View.seen_mono (s.memory.le_raise .producer b
    (.upTo .writePos (s.memory.history .writePos).length)) .writePos
  have hcommits : s.queue.written.length + 1 ≤ ((s.memory.raise .producer
      (.upTo .writePos (s.memory.history .writePos).length)).view .producer).seen .writePos := by
    rw [Memory.raise_self, View.sup_seen, View.upTo_seen, if_pos rfl, h.histories.writes]
    exact le_max_right _ _
  exact
    { queue := hqueue
      clocked := h.clocked.store _ _ _ _
      closed := h.closed.store _ _ _ _
      raceFree := h.raceFree
      histories :=
        { writes := by
            show ((s.memory.store _ _ _ _).history .writePos).length =
              (s.queue.written ++ [_]).length + 1
            rw [Memory.store_history, List.length_append, List.length_append, h.histories.writes]
            rfl
          reads := h.histories.reads
          write := by
            intro i msg hmsg
            show msg.value = BitVec.ofNat w (start (s.queue.written ++ [_]) i)
            rcases Memory.store_message hmsg with hold | ⟨rfl, hvalue, -⟩
            · have hi := (List.getElem?_eq_some_iff.mp hold).choose
              rw [h.histories.writes] at hi
              rw [hstart (Nat.le_of_lt_succ hi)]
              exact h.histories.write i msg hold
            · rw [hvalue, h.histories.writes]
              have hvalue' := hqueue.queue.writePos
              unfold total at hvalue'
              rw [show (s.queue.commit off n bytes).written.length = s.queue.written.length + 1 from
                List.length_append] at hvalue'
              exact hvalue'
          read := by
            intro i msg hmsg
            show msg.value = BitVec.ofNat w (start (s.queue.written ++ [_]) i)
            have hold : (s.memory.history .readPos)[i]? = some msg := hmsg
            have hi := (List.getElem?_eq_some_iff.mp hold).choose
            rw [h.histories.reads] at hi
            rw [hstart (by omega)]
            exact h.histories.read i msg hold }
      accesses := haccesses.commit h.clocked hlen _
      caches :=
        { producer := by
            refine ⟨r, hr.store _ _ _ _, ?_, ?_⟩
            · exact hcached.trans (congrArg _ (hstart hrle).symm)
            · show total (s.queue.written ++ [_]) + 0 ≤ start (s.queue.written ++ [_]) r + 2 ^ k
              rw [total_append, hlen, hstart hrle]
              exact hroom
          worker := by
            refine ⟨j, hj.store _ _ _ _, ?_⟩
            show s.queue.q.consumer.cachedWrite =
                BitVec.ofNat w (start (s.queue.written ++ [_]) j) ∧
              start (s.queue.written ++ [_]) s.queue.reads.length ≤
                start (s.queue.written ++ [_]) j ∧
              ∀ a off len seen, s.queue.consumer = .holding a off len seen →
                start (s.queue.written ++ [_]) s.queue.reads.length + len.toNat ≤
                  start (s.queue.written ++ [_]) j
            rw [hstart hjle, hstart htaken]
            exact hworker }
      flags :=
        { commits := by
            show (s.queue.written ++ [_]).length ≤ _
            rw [List.length_append]
            exact hcommits
          idle := fun hf => hlive hf
          cleared := fun i msg hmsg hvalue => hlive (h.flags.cleared i msg hmsg hvalue).1
          dead := fun hd => hlive (h.flags.dead hd).1
          retired := fun hr => hlive (h.flags.retired hr).1
          promises := h.flags.promises
          promised := h.flags.promised
          heard := h.flags.heard.trans (hseen .worker)
          stopped := by
            intro hs
            show start (s.queue.written ++ [_]) s.heard ≤
              start (s.queue.written ++ [_]) s.queue.reads.length
            rw [hstart h.heard_le, hstart htaken]
            exact h.flags.stopped hs } }

theorem release (h : Visible k s) {off : ℕ} {len : BitVec w} {seen : Observations}
    (hc : s.queue.consumer = .holding .read off len seen) :
    Visible k (State.put inCode { s with queue := s.queue.release .read len seen } .worker .readPos
      (s.queue.release .read len seen).q.inner.readPos) := by
  have hqueue := h.queue.release hc
  have hcons := h.queue.consumer
  simp only [ConsumerOk, hc] at hcons
  obtain ⟨c, hnext, -, hperm, -, -⟩ := hcons
  obtain ⟨⟨r, hr, hproducer⟩, j, hj, hcached, -, hspan⟩ := h.caches
  have hnextStart := start_succ hnext
  have hlen : len.toNat = c.len := hperm
  have hreads : (s.queue.release .read len seen).reads.length = s.queue.reads.length + 1 :=
    List.length_append
  have hmono := start_le_succ s.queue.written s.queue.reads.length
  have hseen (b : Thread) := View.seen_mono (s.memory.le_raise .worker b
    (.upTo .readPos (s.memory.history .readPos).length)) .writePos
  exact
    { queue := hqueue
      clocked := h.clocked.store _ _ _ _
      closed := h.closed.store _ _ _ _
      raceFree := h.raceFree
      histories :=
        { writes := h.histories.writes
          reads := by
            show ((s.memory.store _ _ _ _).history .readPos).length =
              (s.queue.release .read len seen).reads.length + 1
            rw [Memory.store_history, List.length_append, h.histories.reads, hreads]
            rfl
          write := h.histories.write
          read := by
            intro i msg hmsg
            show msg.value = BitVec.ofNat w (start s.queue.written i)
            rcases Memory.store_message hmsg with hold | ⟨rfl, hvalue, -⟩
            · exact h.histories.read i msg hold
            · rw [hvalue, h.histories.reads]
              have hvalue' := hqueue.queue.readPos
              rw [hreads] at hvalue'
              exact hvalue' }
      accesses := by
        show Accesses k _ (s.queue.release .read len seen).reads.length _ _
        rw [hreads]
        exact h.accesses.release h.clocked _
      caches :=
        { producer := ⟨r, hr.store _ _ _ _, hproducer⟩
          worker := by
            refine ⟨j, hj.store _ _ _ _, hcached, ?_, fun a' off' len' seen' hc' => ?_⟩
            · show start s.queue.written (s.queue.release .read len seen).reads.length ≤ _
              rw [hreads, hnextStart, ← hlen]
              exact hspan _ _ _ _ hc
            · cases hc' }
      flags :=
        { commits := h.flags.commits.trans (hseen .producer)
          idle := h.flags.idle
          cleared := h.flags.cleared
          dead := fun hd => ⟨(h.flags.dead hd).1, (h.flags.dead hd).2.trans (hseen .worker)⟩
          retired := by
            intro hr
            show _ ∧ _ ≤ start s.queue.written (s.queue.release .read len seen).reads.length
            rw [hreads]
            exact ⟨(h.flags.retired hr).1, (h.flags.retired hr).2.trans hmono⟩
          promises := h.flags.promises
          promised := h.flags.promised
          heard := h.flags.heard.trans (hseen .worker)
          stopped := by
            intro hs
            show _ ≤ start s.queue.written (s.queue.release .read len seen).reads.length
            rw [hreads]
            exact (h.flags.stopped hs).trans hmono } }

theorem step (h : Visible k s) {e : Event w} (hs : Visibility.step inCode s e = some s') :
    Visible k s' := by
  cases e with
  | reserve n nth =>
    simp only [Visibility.step] at hs
    split at hs
    next hidle halive =>
      obtain ⟨⟨readPos, memory⟩, hload, rfl⟩ := Option.map_eq_some_iff.mp hs
      exact h.reserve hidle halive hload
    next => cases hs
  | store i b =>
    obtain ⟨x, hx, hs⟩ := Option.bind_eq_some_iff.mp hs
    exact h.store hx hs
  | closureReturn => exact h.closureReturn hs
  | commit =>
    obtain ⟨s₁, hplain, rfl⟩ := Option.map_eq_some_iff.mp hs
    obtain ⟨queue, hqueue, rfl⟩ := Option.map_eq_some_iff.mp hplain
    simp only [Queue.step] at hqueue
    split at hqueue
    next off n bytes hp =>
      cases hqueue
      exact h.commit hp
    next => cases hqueue
  | drop =>
    simp only [Visibility.step] at hs
    split at hs
    next hidle halive =>
      cases hs
      exact h.drop hidle halive
    next => cases hs
  | available nth =>
    simp only [Visibility.step] at hs
    split at hs
    next hidle hbusy =>
      obtain ⟨⟨writePos, memory⟩, hload, rfl⟩ := Option.map_eq_some_iff.mp hs
      exact (h.available hidle hload rfl).1
    next => cases hs
  | acquire a len nth =>
    simp only [Visibility.step] at hs
    split at hs
    next => cases hs
    next =>
      obtain ⟨⟨writePos, memory⟩, hload, hs⟩ := Option.bind_eq_some_iff.mp hs
      obtain ⟨queue, hqueue, rfl⟩ := Option.map_eq_some_iff.mp hs
      exact h.acquire hload hqueue
  | observe i =>
    obtain ⟨x, hx, hs⟩ := Option.bind_eq_some_iff.mp hs
    exact h.observe hx hs
  | release =>
    simp only [Visibility.step] at hs
    split at hs
    next off len seen hc => exact h.releasePeek hc hs
    next off len seen hc =>
      obtain ⟨s₁, hplain, rfl⟩ := Option.map_eq_some_iff.mp hs
      obtain ⟨queue, hqueue, rfl⟩ := Option.map_eq_some_iff.mp hplain
      simp only [Queue.step, hc] at hqueue
      cases hqueue
      exact h.release hc
    next => cases hs
  | checkAlive nth =>
    simp only [Visibility.step] at hs
    split at hs
    next =>
      obtain ⟨⟨alive, memory⟩, hload, rfl⟩ := Option.map_eq_some_iff.mp hs
      exact h.checkAlive hload
    next => cases hs
  | retain nth =>
    simp only [Visibility.step] at hs
    split at hs
    next hidle hdead =>
      obtain ⟨⟨writePos, memory⟩, hload, rfl⟩ := Option.map_eq_some_iff.mp hs
      cases ha : availableWith s.queue writePos with
      | mk avail queue => exact h.retain hidle hdead hload ha
    next => cases hs
  | loadFlag nth =>
    simp only [Visibility.step] at hs
    split at hs
    next hidle hbusy =>
      obtain ⟨⟨flag, memory⟩, hload, rfl⟩ := Option.map_eq_some_iff.mp hs
      exact h.loadFlag hload (s.not_stopped hbusy)
    next => cases hs
  | pending nth others =>
    simp only [Visibility.step] at hs
    split at hs
    next hidle hbusy hdown =>
      obtain ⟨⟨writePos, memory⟩, hload, rfl⟩ := Option.map_eq_some_iff.mp hs
      cases ha : availableWith s.queue writePos with
      | mk avail queue => exact h.pending hidle hload ha
    next => cases hs
  | hear =>
    cases hs
    exact h.raise (h.closed.raise fun l => h.closed.view .producer l)
  | shutdown =>
    cases hs
    exact h.shutdown

end Visible

end Insomnilog.Visibility

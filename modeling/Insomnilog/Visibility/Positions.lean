import Insomnilog.Queue.Fifo
import Insomnilog.Visibility.System

/-! The queue operations with a position that an older store has left: what they need of it. -/
namespace Insomnilog.Visibility
open ByteStore Queue ReleaseAcquire RingPosition

variable {w k taken reserved : ℕ} {q : Spsc w} {chunks : List Chunk}

/-- Whether `try_reserve` finds too little room behind the cached read position. -/
def NeedsReadPos (q : Spsc w) (n : BitVec w) : Prop :=
  ¬ q.inner.capacity < n ∧ q.inner.capacity - (q.producer.write - q.producer.cachedRead) < n

instance (q : Spsc w) (n : BitVec w) : Decidable (NeedsReadPos q n) :=
  inferInstanceAs (Decidable (_ ∧ _))

/-- `try_reserve` with a read position that is `r` chunks into the stream, where the cached one is
at `r₀`: it goes on with one of the two, and grants only what fits behind it. -/
theorem reserve_with (h : Inv k q chunks taken 0) {r₀ r : ℕ} {n v : BitVec w}
    (hcached : q.producer.cachedRead = BitVec.ofNat w (start chunks r₀)) (hr₀ : r₀ ≤ taken)
    (hroom : total chunks ≤ start chunks r₀ + 2 ^ k)
    (hv : NeedsReadPos q n → v = BitVec.ofNat w (start chunks r) ∧ r₀ ≤ r ∧ r ≤ taken)
    {res : Option (BitVec w)} {p : Producer w}
    (hres : tryReserve { q.inner with readPos := v } q.producer n = (res, p)) :
    ∃ r', (r' = r₀ ∨ NeedsReadPos q n ∧ r' = r) ∧
      p = { q.producer with cachedRead := BitVec.ofNat w (start chunks r') } ∧
      match res with
      | none => total chunks ≤ start chunks r' + 2 ^ k
      | some off => off = q.producer.write &&& q.inner.mask ∧
          total chunks + n.toNat ≤ start chunks r' + 2 ^ k := by
  have hsame : q.producer =
      { q.producer with cachedRead := BitVec.ofNat w (start chunks r₀) } := by rw [← hcached]
  have hle₀ := (start_mono chunks hr₀).trans h.start_taken_le
  have hroom₀ := h.room hle₀ hroom
  rw [← hcached] at hroom₀
  unfold tryReserve at hres
  dsimp only at hres
  split at hres
  next =>
    cases hres
    exact ⟨r₀, .inl rfl, hsame, hroom⟩
  next hcap =>
    split at hres
    next hshort =>
      obtain ⟨rfl, hr, hrt⟩ := hv ⟨hcap, hshort⟩
      have hle := (start_mono chunks hrt).trans h.start_taken_le
      have hroom' : total chunks ≤ start chunks r + 2 ^ k :=
        hroom.trans (Nat.add_le_add_right (start_mono chunks hr) _)
      have hav := h.room hle hroom'
      split at hres
      next =>
        cases hres
        exact ⟨r, .inr ⟨⟨hcap, hshort⟩, rfl⟩, rfl, hroom'⟩
      next hfits =>
        cases hres
        refine ⟨r, .inr ⟨⟨hcap, hshort⟩, rfl⟩, rfl, rfl, ?_⟩
        rw [BitVec.lt_def, hav] at hfits
        omega
    next hfits =>
      cases hres
      refine ⟨r₀, .inl rfl, hsame, rfl, ?_⟩
      rw [BitVec.lt_def, hroom₀] at hfits
      omega

/-- `available` with a write position that is `j` chunks into the stream, where the cached one is
at `j₀`. -/
theorem available_with (h : Inv k q chunks taken reserved) {j₀ j : ℕ} {v : BitVec w}
    (hcached : q.consumer.cachedWrite = BitVec.ofNat w (start chunks j₀))
    (hj₀ : j₀ ≤ chunks.length) (hle₀ : start chunks taken ≤ start chunks j₀)
    (hv : ¬ q.consumer.read < q.consumer.cachedWrite →
      v = BitVec.ofNat w (start chunks j) ∧ j₀ ≤ j ∧ j ≤ chunks.length)
    {avail : BitVec w} {c : Consumer w}
    (ha : Queue.available { q.inner with writePos := v } q.consumer = (avail, c)) :
    ∃ j', (j' = j₀ ∧ avail ≠ 0 ∨ ¬ q.consumer.read < q.consumer.cachedWrite ∧ j' = j) ∧
      c = { q.consumer with cachedWrite := BitVec.ofNat w (start chunks j') } ∧
      avail.toNat = start chunks j' - start chunks taken := by
  have hdist {i : ℕ} (hi : i ≤ chunks.length) (hle : start chunks taken ≤ start chunks i) :
      (BitVec.ofNat w (start chunks i) - q.consumer.read).toNat =
        start chunks i - start chunks taken := by
    rw [h.read]
    apply ofNat_sub_toNat hle
    have := h.window
    have := start_le_total hi
    have := h.pow_lt
    omega
  unfold Queue.available at ha
  split at ha
  next hlt =>
    cases ha
    refine ⟨j₀, .inl ⟨rfl, fun hz => ?_⟩, by rw [← hcached], ?_⟩
    · have heq : q.consumer.cachedWrite = q.consumer.read := by
        simpa using BitVec.sub_eq_iff_eq_add.mp hz
      rw [heq] at hlt
      exact BitVec.lt_irrefl _ hlt
    · rw [hcached]
      exact hdist hj₀ hle₀
  next hlt =>
    cases ha
    obtain ⟨rfl, hj, hjl⟩ := hv hlt
    exact ⟨j, .inr ⟨hlt, rfl⟩, rfl, hdist hjl (hle₀.trans (start_mono chunks hj))⟩

/-- The queue once the worker has loaded the `j`-th store of `write_pos`. -/
def withCachedWrite (u : Queue.State w) (j : ℕ) : Queue.State w :=
  { u with q := { u.q with
    consumer := { u.q.consumer with cachedWrite := BitVec.ofNat w (start u.written j) } } }

theorem inv_withCachedWrite {u : Queue.State w} {j : ℕ} (h : Inv k u.q u.written taken reserved)
    (hj : j ≤ u.written.length) (hle : start u.written taken ≤ start u.written j) :
    Inv k (withCachedWrite u j).q u.written taken reserved := by
  refine { h with cachedWrite := ⟨max taken j, le_max_left _ _, max_le h.taken_le hj, ?_⟩ }
  rw [(start_mono u.written).map_max, max_eq_right hle]
  rfl

/-- Every chunk before the `n`-th has been read, but for empty ones. -/
def ReadUpTo (chunks : List Chunk) (taken n : ℕ) : Prop :=
  ∀ i c, i < n → chunks[i]? = some c → c.bytes ≠ [] → i < taken

theorem readUpTo_of_start {n : ℕ} (h : start chunks n ≤ start chunks taken) :
    ReadUpTo chunks taken n := by
  intro i c hi hc hbytes
  by_contra hlt
  have hpos : 0 < c.len := List.length_pos_of_ne_nil hbytes
  have hnext := start_succ hc
  have := start_mono chunks (show i + 1 ≤ n from hi)
  have := start_mono chunks (Nat.le_of_not_lt hlt)
  omega

end Insomnilog.Visibility

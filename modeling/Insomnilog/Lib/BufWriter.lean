import Mathlib.Data.List.Infix
import Mathlib.Tactic.TypeStar

/-! A writer that buffers what it is given before a device gets it, like `std::io::BufWriter`. The
device takes a part of what it is offered, is interrupted, or fails. -/

/-- What a device answers to a write: it takes at most `count` elements of what it is offered. -/
inductive DeviceReply (ε : Type*) where
  | taken (count : ℕ)
  | interrupted
  | failed (e : ε)
  deriving DecidableEq

/-- A device with all it has taken, and its next replies to writes and to flushes. After these it
takes everything, and flushes succeed. -/
structure Device (α ε : Type*) where
  content : List α
  replies : List (DeviceReply ε)
  flushReplies : List (Except ε Unit)

/-- A device that takes nothing is an error as well. -/
inductive WriteError (ε : Type*) where
  | writeZero
  | device (e : ε)
  deriving DecidableEq

/-- How a sequence of writes ends: `rest` is what the device has not taken. -/
structure Poured (α ε : Type*) where
  result : Except (WriteError ε) Unit
  rest : List α
  content : List α
  replies : List (DeviceReply ε)

namespace DeviceReply
variable {α ε : Type*}

/-- No error. -/
def progresses : DeviceReply ε → Bool
  | taken count => 0 < count
  | interrupted => true
  | failed _ => false

/-- `write` again and again, until all is written or a reply is an error. -/
def pour (bytes content : List α) : List (DeviceReply ε) → Poured α ε
  | [] => ⟨.ok (), [], content ++ bytes, []⟩
  | reply :: replies =>
    match bytes, reply with
    | [], _ => ⟨.ok (), [], content, reply :: replies⟩
    | bytes, .taken 0 => ⟨.error .writeZero, bytes, content, replies⟩
    | bytes, .taken (count + 1) =>
        pour (bytes.drop (count + 1)) (content ++ bytes.take (count + 1)) replies
    | bytes, .interrupted => pour bytes content replies
    | bytes, .failed e => ⟨.error (.device e), bytes, content, replies⟩

end DeviceReply

namespace Device
variable {α ε : Type*} {d : Device α ε} {bytes : List α} {p : Poured α ε}

/-- All at once: whether it was all written, what was not, and the device after it. -/
def pour (d : Device α ε) (bytes : List α) : Poured α ε :=
  DeviceReply.pour bytes d.content d.replies

def after (d : Device α ε) (p : Poured α ε) : Device α ε :=
  { d with content := p.content, replies := p.replies }

/-- The device's own `flush`. -/
def flush (d : Device α ε) : Except (WriteError ε) Unit × Device α ε :=
  match d.flushReplies with
  | [] => (.ok (), d)
  | reply :: flushReplies => (reply.mapError .device, { d with flushReplies })

/-- The device may write less than it is offered and be interrupted, but it does not fail. -/
structure Works (d : Device α ε) : Prop where
  replies : ∀ reply ∈ d.replies, reply.progresses = true
  flushReplies : ∀ reply ∈ d.flushReplies, reply = .ok ()

/-- Nothing is lost between the device and what is left to write. -/
structure Pours (d : Device α ε) (bytes : List α) (p : Poured α ε) : Prop where
  kept : p.content ++ p.rest = d.content ++ bytes
  grown : d.content <+: p.content
  all : p.result = .ok () → p.rest = []
  works : d.Works → p.result = .ok () ∧ (d.after p).Works

theorem pours (d : Device α ε) (bytes : List α) : d.Pours bytes (d.pour bytes) := by
  obtain ⟨content, replies, flushReplies⟩ := d
  unfold pour
  induction replies generalizing bytes content with
  | nil =>
    refine ⟨List.append_nil _, List.prefix_append _ _, fun _ => rfl, fun h => ⟨rfl, ?_⟩⟩
    exact ⟨nofun, h.flushReplies⟩
  | cons reply replies ih =>
    cases bytes with
    | nil =>
      refine ⟨rfl, List.prefix_rfl, fun _ => rfl, fun h => ⟨rfl, ?_⟩⟩
      exact ⟨h.replies, h.flushReplies⟩
    | cons b bytes =>
      cases reply with
      | taken count =>
        cases count with
        | zero =>
          refine ⟨rfl, List.prefix_rfl, nofun, fun h => ?_⟩
          cases h.replies _ List.mem_cons_self
        | succ count =>
          have hrest := ih ((b :: bytes).drop (count + 1))
            (content ++ (b :: bytes).take (count + 1))
          refine ⟨?_, (List.prefix_append _ _).trans hrest.grown, hrest.all, fun h => ?_⟩
          · refine hrest.kept.trans ?_
            rw [List.append_assoc, List.take_append_drop]
          · exact hrest.works ⟨fun r hr => h.replies r (List.mem_cons_of_mem _ hr), h.flushReplies⟩
      | interrupted =>
        have hrest := ih (b :: bytes) content
        refine ⟨hrest.kept, hrest.grown, hrest.all, fun h => ?_⟩
        exact hrest.works ⟨fun r hr => h.replies r (List.mem_cons_of_mem _ hr), h.flushReplies⟩
      | failed e =>
        refine ⟨rfl, List.prefix_rfl, nofun, fun h => ?_⟩
        cases h.replies _ List.mem_cons_self

theorem Pours.rest_length (h : d.Pours bytes p) : p.rest.length ≤ bytes.length := by
  have hlength := congrArg List.length h.kept
  have hgrown := h.grown.length_le
  simp only [List.length_append] at hlength
  omega

end Device

theorem Device.flush_spec {α ε : Type*} (d : Device α ε) : d.flush.2.content = d.content ∧
    (d.Works → d.flush.1 = .ok () ∧ d.flush.2.Works) := by
  obtain ⟨content, replies, flushReplies⟩ := d
  unfold flush
  cases flushReplies with
  | nil => exact ⟨rfl, fun h => ⟨rfl, h⟩⟩
  | cons reply flushReplies =>
    refine ⟨rfl, fun h => ⟨?_, h.replies, fun r hr => h.flushReplies r (List.mem_cons_of_mem _ hr)⟩⟩
    rw [h.flushReplies reply List.mem_cons_self]
    rfl

/-- What fits in the buffer waits there for the device. -/
structure BufWriter (α ε : Type*) where
  capacity : ℕ
  buffer : List α
  device : Device α ε
  fits : buffer.length ≤ capacity

namespace BufWriter
variable {α ε : Type*} {w : BufWriter α ε} {bytes : List α}

def new (capacity : ℕ) (device : Device α ε) : BufWriter α ε :=
  ⟨capacity, [], device, Nat.zero_le _⟩

def spareCapacity (w : BufWriter α ε) : ℕ := w.capacity - w.buffer.length

/-- All that the writer has accepted. -/
def accepted (w : BufWriter α ε) : List α := w.device.content ++ w.buffer

/-- What the device has not taken stays in the buffer. -/
def flushBuf (w : BufWriter α ε) : Except (WriteError ε) Unit × BufWriter α ε :=
  let p := w.device.pour w.buffer
  (p.result, { w with
    buffer := p.rest
    device := w.device.after p
    fits := (w.device.pours w.buffer).rest_length.trans w.fits })

theorem flushBuf_ok (h : w.flushBuf.1 = .ok ()) : w.flushBuf.2.buffer = [] :=
  (w.device.pours w.buffer).all h

/-- `flush_buf()?`, and the device's own flush. -/
def flush (w : BufWriter α ε) : Except (WriteError ε) Unit × BufWriter α ε :=
  match w.flushBuf.1 with
  | .ok () =>
      let (result, device) := w.flushBuf.2.device.flush
      (result, { w.flushBuf.2 with device })
  | .error e => (.error e, w.flushBuf.2)

/-- `write_to_buffer_unchecked`. -/
def store (w : BufWriter α ε) (bytes : List α) (h : bytes.length ≤ w.spareCapacity) :
    BufWriter α ε where
  capacity := w.capacity
  buffer := w.buffer ++ bytes
  device := w.device
  fits := by
    have hfits := w.fits
    rw [List.length_append]
    unfold spareCapacity at h
    omega

/-- What is as long as the whole buffer does not go through it. -/
def pass (w : BufWriter α ε) (bytes : List α)
    (h : bytes.length < w.capacity → bytes.length ≤ w.spareCapacity) :
    Except (WriteError ε) Unit × BufWriter α ε :=
  if hlt : bytes.length < w.capacity then (.ok (), w.store bytes (h hlt))
  else
    let p := w.device.pour bytes
    (p.result, { w with device := w.device.after p })

theorem spareCapacity_of_flushed (h : w.flushBuf.1 = .ok ()) :
    w.flushBuf.2.spareCapacity = w.flushBuf.2.capacity := by
  rw [spareCapacity, flushBuf_ok h]
  rfl

def writeAllCold (w : BufWriter α ε) (bytes : List α) :
    Except (WriteError ε) Unit × BufWriter α ε :=
  if hspare : w.spareCapacity < bytes.length then
    match hflush : w.flushBuf.1 with
    | .ok () => w.flushBuf.2.pass bytes fun hlt => by
        rw [spareCapacity_of_flushed hflush]
        exact hlt.le
    | .error e => (.error e, w.flushBuf.2)
  else w.pass bytes fun _ => Nat.le_of_not_lt hspare

def writeAll (w : BufWriter α ε) (bytes : List α) : Except (WriteError ε) Unit × BufWriter α ε :=
  if h : bytes.length < w.spareCapacity then (.ok (), w.store bytes h.le) else w.writeAllCold bytes

/-- What a call makes of a writer: it accepts `bytes`, or the first of them and fails. -/
structure Accepts (w : BufWriter α ε) (bytes : List α) (result : Except (WriteError ε) Unit)
    (w' : BufWriter α ε) : Prop where
  accepted : ∃ part rest, part ++ rest = bytes ∧ w'.accepted = w.accepted ++ part ∧
    (result = .ok () → rest = [])
  grown : w.device.content <+: w'.device.content
  works : w.device.Works → result = .ok () ∧ w'.device.Works

theorem Accepts.trans {w' w'' : BufWriter α ε} {result : Except (WriteError ε) Unit}
    (h : w.Accepts [] (.ok ()) w') (h' : w'.Accepts bytes result w'') :
    w.Accepts bytes result w'' := by
  obtain ⟨part, rest, hnil, haccepted, -⟩ := h.accepted
  rw [(List.append_eq_nil_iff.mp hnil).1, List.append_nil] at haccepted
  refine ⟨?_, h.grown.trans h'.grown, fun hw => h'.works (h.works hw).2⟩
  rw [← haccepted]
  exact h'.accepted

theorem flushBuf_accepted (w : BufWriter α ε) : w.flushBuf.2.accepted = w.accepted :=
  (w.device.pours w.buffer).kept

theorem flushBuf_accepts (w : BufWriter α ε) (bytes : List α)
    (h : w.flushBuf.1 ≠ .ok () ∨ bytes = []) :
    w.Accepts bytes w.flushBuf.1 w.flushBuf.2 := by
  have hpours := w.device.pours w.buffer
  refine ⟨⟨[], bytes, rfl, ?_, fun hok => h.resolve_left fun hne => hne hok⟩, hpours.grown,
    hpours.works⟩
  rw [List.append_nil]
  exact w.flushBuf_accepted

theorem store_accepts (h : bytes.length ≤ w.spareCapacity) :
    w.Accepts bytes (.ok ()) (w.store bytes h) := by
  refine ⟨⟨bytes, [], List.append_nil _, ?_, fun _ => rfl⟩, List.prefix_rfl, fun hw => ⟨rfl, hw⟩⟩
  exact (List.append_assoc _ _ _).symm

/-- What does not go through the buffer finds it empty. -/
theorem pass_accepts (h : bytes.length < w.capacity → bytes.length ≤ w.spareCapacity)
    (hempty : w.capacity ≤ bytes.length → w.buffer = []) :
    w.Accepts bytes (w.pass bytes h).1 (w.pass bytes h).2 := by
  by_cases hlt : bytes.length < w.capacity
  · have hpass : w.pass bytes h = (.ok (), w.store bytes (h hlt)) := by
      unfold pass
      exact dif_pos hlt
    rw [hpass]
    exact store_accepts (h hlt)
  · have hpass : w.pass bytes h = ((w.device.pour bytes).result,
        { w with device := w.device.after (w.device.pour bytes) }) := by
      unfold pass
      exact dif_neg hlt
    have hnil := hempty (Nat.le_of_not_lt hlt)
    have hpours := w.device.pours bytes
    rw [hpass]
    obtain ⟨part, hpart⟩ := hpours.grown
    refine ⟨⟨part, (w.device.pour bytes).rest, ?_, ?_, hpours.all⟩, hpours.grown, hpours.works⟩
    · have hkept := hpours.kept
      rwa [← hpart, List.append_assoc, List.append_cancel_left_eq] at hkept
    · show (w.device.pour bytes).content ++ w.buffer = w.device.content ++ w.buffer ++ part
      rw [hnil, List.append_nil, List.append_nil, hpart]

theorem writeAllCold_accepts (w : BufWriter α ε) (bytes : List α) :
    w.Accepts bytes (w.writeAllCold bytes).1 (w.writeAllCold bytes).2 := by
  unfold writeAllCold
  split
  next hspare =>
    split
    next hflush =>
      have hflushed := w.flushBuf_accepts [] (.inr rfl)
      rw [hflush] at hflushed
      exact hflushed.trans (pass_accepts _ fun _ => flushBuf_ok hflush)
    next e hflush =>
      have hfailed := w.flushBuf_accepts bytes (.inl (by rw [hflush]; exact nofun))
      rw [hflush] at hfailed
      exact hfailed
  next hspare =>
    refine pass_accepts _ fun hle => List.eq_nil_of_length_eq_zero ?_
    have hfits := w.fits
    unfold spareCapacity at hspare
    omega

theorem writeAll_accepts (w : BufWriter α ε) (bytes : List α) :
    w.Accepts bytes (w.writeAll bytes).1 (w.writeAll bytes).2 := by
  unfold writeAll
  split
  next hlt => exact store_accepts hlt.le
  next => exact w.writeAllCold_accepts bytes

/-- After a flush that succeeds nothing waits in the buffer. -/
theorem flush_accepts (w : BufWriter α ε) : w.Accepts [] w.flush.1 w.flush.2 ∧
    (w.flush.1 = .ok () → w.flush.2.device.content = w.flush.2.accepted) := by
  have hflushed := w.flushBuf_accepts [] (.inr rfl)
  unfold flush
  split
  next hok =>
    have hnil := flushBuf_ok hok
    obtain ⟨hcontent, hworks⟩ := w.flushBuf.2.device.flush_spec
    have haccepted : ({ w.flushBuf.2 with device := w.flushBuf.2.device.flush.2 } :
        BufWriter α ε).accepted = w.flushBuf.2.accepted := by
      unfold accepted
      rw [hcontent]
    obtain ⟨part, rest, hsplit, hpart, -⟩ := hflushed.accepted
    refine ⟨⟨⟨part, rest, hsplit, haccepted.trans hpart, fun _ => ?_⟩, ?_, fun hw => ?_⟩,
      fun _ => ?_⟩
    · exact (List.append_eq_nil_iff.mp hsplit).2
    · show _ <+: w.flushBuf.2.device.flush.2.content
      rw [hcontent]
      exact hflushed.grown
    · exact hworks (hflushed.works hw).2
    · show _ = w.flushBuf.2.device.flush.2.content ++ w.flushBuf.2.buffer
      rw [hnil, List.append_nil]
  next e hfailed =>
    rw [hfailed] at hflushed
    exact ⟨hflushed, nofun⟩

end BufWriter

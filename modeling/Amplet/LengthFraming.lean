import Mathlib.Data.List.Basic
import Mathlib.Tactic

/-!
# Length prefixed frames

A frame is the length of a message as four bytes, most significant first,
followed by the message. A byte stream that starts with a frame determines it.
-/

namespace Amplet.LengthFraming
open List

def encodeLength (n : ℕ) : List UInt8 :=
  [UInt8.ofNat (n / 2 ^ 24), UInt8.ofNat (n / 2 ^ 16), UInt8.ofNat (n / 2 ^ 8), UInt8.ofNat n]

def decodeLength (bytes : List UInt8) : ℕ := bytes.foldl (fun n b => 256 * n + b.toNat) 0

def frame (message : List UInt8) : List UInt8 := encodeLength message.length ++ message

def frames (messages : List (List UInt8)) : List UInt8 := (messages.map frame).flatten

@[simp] theorem encodeLength_length (n : ℕ) : (encodeLength n).length = 4 := rfl

theorem encodeLength_ne_nil (n : ℕ) : encodeLength n ≠ [] := by simp [encodeLength]

theorem decodeLength_encodeLength {n : ℕ} (h : n < 2 ^ 32) : decodeLength (encodeLength n) = n := by
  simp only [decodeLength, encodeLength, foldl_cons, foldl_nil, UInt8.toNat_ofNat']
  omega

theorem encodeLength_decodeLength {bytes : List UInt8} (h : bytes.length = 4) : encodeLength (decodeLength bytes) = bytes := by
  match bytes, h with
  | [a, b, c, d], _ =>
    have ha := a.toNat_lt
    have hb := b.toNat_lt
    have hc := c.toNat_lt
    have hd := d.toNat_lt
    simp only [decodeLength, encodeLength, foldl_cons, foldl_nil, cons.injEq, ← UInt8.toNat_inj, UInt8.toNat_ofNat', and_true]
    refine ⟨?_, ?_, ?_, ?_⟩ <;> omega

@[simp] theorem frame_length (message : List UInt8) : (frame message).length = message.length + 4 := by
  rw [frame, length_append, encodeLength_length, Nat.add_comm]

theorem frames_cons (message : List UInt8) (messages : List (List UInt8)) :
    frames (message :: messages) = frame message ++ frames messages := rfl

theorem frame_append_inj {m m' rest rest' : List UInt8} (hm : m.length < 2 ^ 32)
    (hm' : m'.length < 2 ^ 32) (h : frame m ++ rest = frame m' ++ rest') :
    m = m' ∧ rest = rest' := by
  rw [frame, frame, append_assoc, append_assoc] at h
  obtain ⟨hhead, htail⟩ := append_inj h rfl
  have hlen : m.length = m'.length := by
    rw [← decodeLength_encodeLength hm, hhead, decodeLength_encodeLength hm']
  exact append_inj htail hlen

theorem frame_of_prefix {m rest : List UInt8} {messages : List (List UInt8)}
    (hm : m.length < 2 ^ 32) (hlen : ∀ m' ∈ messages, m'.length < 2 ^ 32)
    (h : frame m ++ rest <+: frames messages) :
    ∃ messages', messages = m :: messages' ∧ rest <+: frames messages' := by
  obtain ⟨tail, htail⟩ := h
  cases messages with
  | nil =>
    have := congrArg length htail
    simp [frames] at this
  | cons m' messages =>
    rw [frames_cons, append_assoc] at htail
    obtain ⟨rfl, hrest⟩ := frame_append_inj hm (hlen m' (mem_cons_self ..)) htail
    exact ⟨messages, rfl, tail, hrest⟩

end Amplet.LengthFraming

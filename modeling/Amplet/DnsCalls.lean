import Amplet.DnsResponse
import Amplet.PartialOrbit

/-!
# Following compression pointers

Where the loop of `decode` in `src/tests/dns/dns.c` goes from one turn to the next
depends on the packet alone. Nothing keeps it from a position where it has been,
and then it never ends.
-/

namespace Amplet.DnsCalls
open Option Bytes DnsNames DnsQuery DnsResponse PartialOrbit SocketAddress

def nextStart (data : CStr) (start : ℕ) : Option ℕ :=
  match data[start]? with
  | none => none
  | some length =>
    if length &&& 0xc0 = 0xc0 then
      (data[start + 1]?).map fun low => (length &&& 0x3f).toNat <<< 8 ||| low.toNat
    else if length > 0 then some (start + length.toNat + 1)
    else none

section Turns

variable {data : CStr} {fuel start : ℕ} {c c' : Cursor} {result : Option NameBuffer}

theorem appendPart_start {length : ℕ} (h : appendPart data c length = some c') : c'.start = c.start + length + 1 := by
  rw [appendPart] at h
  split at h
  · cases h
    rfl
  · obtain ⟨separated, -, h⟩ := bind_eq_some_iff.mp h
    obtain ⟨bytes, -, h⟩ := bind_eq_some_iff.mp h
    obtain ⟨b, -, h⟩ := map_eq_some_iff.mp h
    cases h
    rfl

theorem decodeLoop_last (hnext : nextStart data c.start = none) : ∃ last, ∀ fuel, decodeLoop data (fuel + 1) c = last := by
  rw [nextStart] at hnext
  cases hlength : data[c.start]? with
  | none => exact ⟨none, fun fuel => by rw [decodeLoop, hlength]⟩
  | some length =>
    rw [hlength] at hnext
    dsimp only at hnext
    split_ifs at hnext with hpointer hlabel
    · refine ⟨none, fun fuel => ?_⟩
      rw [decodeLoop, hlength]
      dsimp only
      rw [if_pos hpointer, map_eq_none_iff.mp hnext]
    · refine ⟨some c, fun fuel => ?_⟩
      rw [decodeLoop, hlength]
      dsimp only
      rw [if_neg hpointer, if_neg hlabel]

theorem decodeLoop_next (hnext : nextStart data c.start = some start) :
    ∃ turn : Option Cursor, (∀ c₁, turn = some c₁ → c₁.start = start) ∧
      ∀ fuel, decodeLoop data (fuel + 1) c = turn.bind (decodeLoop data fuel) := by
  rw [nextStart] at hnext
  cases hlength : data[c.start]? with
  | none =>
    rw [hlength] at hnext
    cases hnext
  | some length =>
    rw [hlength] at hnext
    dsimp only at hnext
    split_ifs at hnext with hpointer hlabel
    · obtain ⟨low, hlow, htarget⟩ := map_eq_some_iff.mp hnext
      refine ⟨some { c with
          current := some (c.current.getD (c.start + 2)), start := start }, ?_, fun fuel => ?_⟩
      · intro c₁ hc₁
        cases hc₁
        rfl
      · rw [decodeLoop, hlength]
        dsimp only
        rw [if_pos hpointer, hlow, bind_some, ← htarget]
    · refine ⟨appendPart data c length.toNat, ?_, fun fuel => ?_⟩
      · intro c₁ hc₁
        rw [appendPart_start hc₁]
        exact some.inj hnext
      · rw [decodeLoop, hlength]
        dsimp only
        rw [if_neg hpointer, if_pos hlabel]

def Terminates (data : CStr) (start : ℕ) : Prop := Ends (nextStart data) start

theorem Terminates.enough (h : Terminates data start) : ∃ enough, ∀ fuel, enough ≤ fuel →
    ∀ c : Cursor, c.start = start → decodeLoop data fuel c = decodeLoop data enough c := by
  obtain ⟨n, hn⟩ := h
  refine ⟨n, ?_⟩
  induction n generalizing start with
  | zero => cases hn
  | succ n ih =>
    rintro fuel hfuel c rfl
    obtain ⟨fuel, rfl⟩ := Nat.exists_eq_add_of_le' (Nat.le_of_add_left_le hfuel)
    cases hnext : nextStart data c.start with
    | none =>
      obtain ⟨last, hlast⟩ := decodeLoop_last hnext
      rw [hlast, hlast]
    | some start =>
      rw [orbit_succ', hnext, bind_some] at hn
      obtain ⟨turn, hturn, hloop⟩ := decodeLoop_next hnext
      rw [hloop, hloop]
      cases turn with
      | none => rfl
      | some c₁ => exact ih hn fuel (by omega) c₁ (hturn c₁ rfl)

theorem decodeLoop_of_not_terminates (h : ¬Terminates data start) (fuel : ℕ) :
    ∀ c : Cursor, c.start = start → decodeLoop data fuel c = none := by
  induction fuel generalizing start with
  | zero => exact fun _ _ => rfl
  | succ fuel ih =>
    rintro c rfl
    cases hnext : nextStart data c.start with
    | none => exact absurd ⟨1, hnext⟩ h
    | some start =>
      have hstart : ¬Terminates data start := by
        rintro ⟨n, hn⟩
        exact h ⟨n + 1, by rw [orbit_succ', hnext, bind_some, hn]⟩
      obtain ⟨turn, hturn, hloop⟩ := decodeLoop_next hnext
      rw [hloop]
      cases turn with
      | none => rfl
      | some c₁ => exact ih hstart c₁ (hturn c₁ rfl)

end Turns

theorem finite_nextStart (data : CStr) : {pos | nextStart data pos ≠ none}.Finite := by
  refine (Set.finite_lt_nat data.length).subset fun pos hpos => ?_
  by_contra hle
  exact hpos (by rw [nextStart, List.getElem?_eq_none (not_lt.mp hle)])

/-- The loop has its result after some number of turns, whatever the buffer, or it comes back to a
position and has none after any number. -/
theorem decodeLoop_settles (data : CStr) (start : ℕ) : (¬Returns (nextStart data) start ∧ ∃ enough, ∀ fuel, enough ≤ fuel →
        ∀ c : Cursor, c.start = start → decodeLoop data fuel c = decodeLoop data enough c) ∨
      (Returns (nextStart data) start ∧ ∀ fuel, ∀ c : Cursor, c.start = start → decodeLoop data fuel c = none) := by
  have hends := ends_iff_not_returns (finite_nextStart data) start
  by_cases hreturns : Returns (nextStart data) start
  · exact Or.inr ⟨hreturns, decodeLoop_of_not_terminates fun h => hends.mp h hreturns⟩
  · exact Or.inl ⟨hreturns, Terminates.enough (hends.mpr hreturns)⟩

structure Examined {count : ℕ} (e : Endian) (packet : CStr) (g : DnsGlobals count) (h : Header) : Prop where
  header : readHeader packet = .ok h
  accepted : ∃ index, responseIndex g.ident count h.id = some index
  code : h.responseCode e = .responseOk ∨ h.responseCode e = .notFound

/-- Behind the header, and for every record that the records before it lead to. -/
inductive DecodeCall {count : ℕ} (e : Endian) (names : ℕ → NameBuffer) (packet : CStr)
    (g : DnsGlobals count) : ℕ → Prop
  | question {h : Header} (examined : Examined e packet g h) : DecodeCall e names packet g sizeofDns
  | record {h : Header} {fuel first n pos : ℕ} {info info' : Info} (examined : Examined e packet g h)
      (hfirst : skipQuestions fuel packet h.qdCount sizeofDns = .ok first)
      (hcount : n < h.responseCount e)
      (hrecords : processRecords fuel names packet n 0 first info = .ok (pos, info')) :
      DecodeCall e names packet g pos

/-- A response to the first query, whose question is a pointer to itself. -/
def circularPacket : CStr := htons 0x1234 ++ [0x80, 0] ++ htons 1 ++ htons 0 ++ htons 0 ++ htons 0 ++
  [0xc0, 12] ++ htons 1 ++ htons 1

def oneDestination : DnsGlobals 1 :=
  ⟨exampleOptions, ⟨3, 4⟩, fun _ => none, fun _ => Info.zero, fun _ => Info.zero, 0x1234, 1, 1, false, true, false⟩

end Amplet.DnsCalls

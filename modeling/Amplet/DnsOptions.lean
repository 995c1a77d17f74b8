import Amplet.DnsResponse

/-!
# Options of OPT records

The data of an OPT record is a sequence of options, each behind its code and its
length. `process_opt_rr` in `src/tests/dns/dns.c` subtracts the lengths from that
of the record without looking whether they are in it, and the difference wraps.
-/

namespace Amplet.DnsOptions
open List Bytes DnsQuery DnsResponse Failing ProbeTest

structure OptOption where
  code : UInt16
  payload : CStr
  short : payload.length < 65536

def OptOption.bytes (o : OptOption) : CStr :=
  htons o.code ++ (htons (UInt16.ofNat o.payload.length) ++ o.payload)

def OptOption.record (info : Info) (o : OptOption) : Info :=
  if o.code = 3 then
    { info with nsidLength := o.payload.length, nsidPayload := some o.payload }
  else info

def rdata (options : List OptOption) : CStr := options.flatMap OptOption.bytes

theorem length_bytes (o : OptOption) : o.bytes.length = o.payload.length + 4 := by
  rw [OptOption.bytes, length_append, length_append]
  simp only [htons, length_cons, length_nil]
  omega

theorem rdata_cons (o : OptOption) (options : List OptOption) : rdata (o :: options) = o.bytes ++ rdata options := flatMap_cons

theorem length_le_rdata (options : List OptOption) : options.length ≤ (rdata options).length := by
  induction options with
  | nil => exact le_rfl
  | cons o options ih =>
    rw [rdata_cons, length_append, length_cons, length_bytes]
    omega

section Loop

variable {data before behind : CStr} {pos turns length : ℕ} {rrlen : UInt16} {info info' : Info}

theorem takeOption_at {o : OptOption} (hdata : data = before ++ (o.bytes ++ behind)) (hpos : pos = before.length) (info : Info) :
    takeOption data pos info = .ok (o.payload.length, o.record info) := by
  have hcode : field data pos = .ok o.code.toNat := by
    refine field_htons before (htons (UInt16.ofNat o.payload.length) ++ o.payload ++ behind) ?_ hpos
    rw [hdata, OptOption.bytes, append_assoc]
  have hlength : field data (pos + 2) = .ok o.payload.length := by
    have hread : field data (pos + 2) = .ok (UInt16.ofNat o.payload.length).toNat := by
      refine field_htons (before ++ htons o.code) (o.payload ++ behind) ?_ ?_
      · rw [hdata, OptOption.bytes]
        simp only [append_assoc]
      · rw [hpos, length_append]
        rfl
    rw [hread, UInt16.toNat_ofNat_of_lt' o.short]
  have hthree : o.code.toNat = 3 ↔ o.code = 3 := UInt16.toNat_inj (b := 3)
  rw [takeOption, hcode, ok_bind, hlength, ok_bind, OptOption.record]
  by_cases hnsid : o.code = 3
  · have hpayload : copyBytes data (pos + sizeofDnsOptRdata) o.payload.length = .ok o.payload := by
      refine copyBytes_at (before ++ (htons o.code ++ htons (UInt16.ofNat o.payload.length))) behind ?_ ?_
      · rw [hdata, OptOption.bytes]
        simp only [append_assoc]
      · rw [hpos, length_append]
        rfl
    rw [if_pos (hthree.mpr hnsid), hpayload, ok_bind, if_pos hnsid]
  · rw [if_neg (mt hthree.mp hnsid), if_neg hnsid]

theorem ofNat_rdata_sub (o : OptOption) (options : List OptOption) :
    UInt16.ofNat (rdata (o :: options)).length - 4 - UInt16.ofNat o.payload.length = UInt16.ofNat (rdata options).length := by
  rw [rdata_cons, length_append, length_bytes, UInt16.ofNat_add, UInt16.ofNat_add]
  have hfour : UInt16.ofNat 4 = 4 := rfl
  grind

theorem ofNat_rdata_pos (o : OptOption) (options : List OptOption)
    (h : (rdata (o :: options)).length < 65536) : UInt16.ofNat (rdata (o :: options)).length > 0 := by
  rw [gt_iff_lt, UInt16.lt_iff_toNat_lt, UInt16.toNat_ofNat_of_lt' h, rdata_cons, length_append, length_bytes]
  change 0 < _
  omega

theorem optLoop_rdata {options : List OptOption} (hne : options ≠ [])
    (hlength : (rdata options).length < 65536) (hdata : data = before ++ (rdata options ++ behind))
    (hpos : pos = before.length) (hturns : options.length ≤ turns) (info : Info) :
    optLoop data turns pos (UInt16.ofNat (rdata options).length) info = .ok (options.foldl OptOption.record info) := by
  induction options generalizing before pos turns info with
  | nil => exact absurd rfl hne
  | cons o options ih =>
    obtain ⟨turns, rfl⟩ := Nat.exists_eq_add_of_le' (Nat.one_le_of_lt hturns)
    rw [rdata_cons, length_append, length_bytes] at hlength
    have hsplit : data = before ++ (o.bytes ++ (rdata options ++ behind)) := by
      rw [hdata, rdata_cons, append_assoc]
    rw [optLoop, takeOption_at hsplit hpos, ok_bind]
    dsimp only
    rw [ofNat_rdata_sub, foldl_cons]
    cases options with
    | nil =>
      have hzero : UInt16.ofNat (rdata []).length = 0 := rfl
      rw [hzero, if_neg (by decide), if_pos rfl]
      rfl
    | cons next options =>
      rw [if_pos (ofNat_rdata_pos next options (by omega))]
      refine ih (by simp) (by omega) (hsplit.trans (append_assoc _ _ _).symm) ?_ ?_ _
      · rw [hpos, length_append, length_bytes]
        rfl
      · rw [length_cons] at hturns
        omega

theorem takeOption_eq_ok (h : takeOption data pos info = .ok (length, info')) :
    length < 65536 ∧ pos + 4 ≤ data.length ∧ (pos + length + 4 ≤ data.length → ∃ o : OptOption, o.payload.length = length ∧
        data.drop pos = o.bytes ++ data.drop (pos + length + 4)) := by
  rw [takeOption, bind_eq_ok] at h
  obtain ⟨code, hcode, h⟩ := h
  rw [bind_eq_ok] at h
  obtain ⟨n, hlength, h⟩ := h
  obtain rfl : n = length := by
    split_ifs at h
    · obtain ⟨payload, -, hok⟩ := bind_eq_ok.mp h
      cases hok
      rfl
    · cases h
      rfl
  obtain ⟨hroom, hlt⟩ := field_eq_ok hlength
  refine ⟨hlt, by omega, fun hfit => ?_⟩
  have hpayload : ∃ payload : CStr, payload.length = n ∧ data.drop (pos + 4) = payload ++ data.drop (pos + n + 4) := by
    refine ⟨(data.drop (pos + 4)).take n, ?_, ?_⟩
    · rw [length_take, length_drop]
      omega
    · have hsplit := take_append_drop n (data.drop (pos + 4))
      rw [drop_drop, show pos + 4 + n = pos + n + 4 by omega] at hsplit
      exact hsplit.symm
  obtain ⟨payload, rfl, hdrop⟩ := hpayload
  refine ⟨⟨UInt16.ofNat code, payload, hlt⟩, rfl, ?_⟩
  rw [OptOption.bytes, drop_field hcode, drop_field hlength, append_assoc, append_assoc, ← hdrop]

theorem toNat_sub_option (rrlen : UInt16) (h : length < 65536) :
    (rrlen - 4 - UInt16.ofNat length).toNat = (rrlen.toNat + 131068 - length) % 65536 := by
  have hrrlen := rrlen.toNat_lt
  have hfour : (4 : UInt16).toNat = 4 := rfl
  rw [UInt16.toNat_sub, UInt16.toNat_sub, UInt16.toNat_ofNat_of_lt' h, hfour]
  omega

theorem header_of_optLoop (h : optLoop data turns pos rrlen info = .ok info') : pos + 4 ≤ data.length := by
  cases turns with
  | zero => cases h
  | succ turns =>
    rw [optLoop, bind_eq_ok] at h
    obtain ⟨⟨length, info₁⟩, htake, -⟩ := h
    exact (takeOption_eq_ok htake).2.1

theorem options_of_optLoop (h : optLoop data turns pos rrlen info = .ok info')
    (hend : data.length = pos + rrlen.toNat) : ∃ options, data.drop pos = rdata options := by
  induction turns generalizing pos rrlen info with
  | zero => cases h
  | succ turns ih =>
    rw [optLoop, bind_eq_ok] at h
    obtain ⟨⟨length, info₁⟩, htake, h⟩ := h
    obtain ⟨hlt, hheader, hoption⟩ := takeOption_eq_ok htake
    have hrest := toNat_sub_option rrlen hlt
    have hrrlen := rrlen.toNat_lt
    dsimp only at h
    by_cases hfit : pos + length + 4 ≤ data.length
    · obtain ⟨o, hpayload, hbytes⟩ := hoption hfit
      have hexact : (rrlen - 4 - UInt16.ofNat length).toNat = rrlen.toNat - length - 4 := by
        rw [hrest]
        omega
      split_ifs at h with hmore hzero
      · obtain ⟨options, hoptions⟩ := ih h (by rw [hexact, sizeofDnsOptRdata]; omega)
        rw [sizeofDnsOptRdata] at hoptions
        exact ⟨o :: options, by rw [hbytes, hoptions, rdata_cons]⟩
      · have hlast : data.length ≤ pos + length + 4 := by
          rw [hzero] at hexact
          change 0 = _ at hexact
          omega
        refine ⟨[o], ?_⟩
        rw [hbytes, drop_eq_nil_of_le hlast]
        simp [rdata]
    · -- the difference wraps, and the next header would be behind the packet
      have hmore : rrlen - 4 - UInt16.ofNat length > 0 := by
        rw [gt_iff_lt, UInt16.lt_iff_toNat_lt, hrest]
        change 0 < _
        omega
      rw [if_pos hmore] at h
      have hheader' := header_of_optLoop h
      rw [sizeofDnsOptRdata] at hheader'
      omega

theorem optLoop_turns (hturns : data.length < pos + turns) (more : ℕ) :
    optLoop data (turns + more) pos rrlen info = optLoop data turns pos rrlen info := by
  have houtside : ∀ {pos : ℕ}, data.length < pos → ∀ info, takeOption data pos info = .error .memory := by
    intro pos hpos info
    have hnone : field data pos = .error .memory := by
      rw [field, getElem?_eq_none (by omega)]
    rw [takeOption, hnone, error_bind]
  induction turns generalizing pos rrlen info with
  | zero =>
    cases more with
    | zero => rfl
    | succ more =>
      change (takeOption data pos info >>= _) = _
      rw [houtside (by omega), error_bind]
      rfl
  | succ turns ih =>
    rw [Nat.add_right_comm, optLoop, optLoop]
    refine congrArg _ (funext fun taken => ?_)
    dsimp only
    rw [ih]
    rw [sizeofDnsOptRdata]
    omega

end Loop

/-- In memory that ends with the record, all that `process_opt_rr` reads is there, and it returns.
-/
def ReadsInside (rdata : CStr) : Prop := ∀ (before : CStr) (info : Info), ∃ info',
  processOptRr (before ++ rdata) before.length (UInt16.ofNat rdata.length) info = .ok info'

theorem processOptRr_rdata {options : List OptOption} (hne : options ≠ [])
    (hlength : (rdata options).length < 65536) (before behind : CStr) (info : Info) :
    processOptRr (before ++ (rdata options ++ behind)) before.length
      (UInt16.ofNat (rdata options).length) info = .ok (options.foldl OptOption.record info) := by
  refine optLoop_rdata hne hlength rfl rfl ?_ info
  have hle := length_le_rdata options
  rw [length_append, length_append]
  omega

theorem readsInside_iff {bytes : CStr} (hmin : sizeofDnsOptRdata ≤ bytes.length) (hmax : bytes.length < 65536) :
    ReadsInside bytes ↔ ∃ options : List OptOption, bytes = options.flatMap OptOption.bytes := by
  constructor
  · intro hinside
    obtain ⟨info', hrun⟩ := hinside [] Info.zero
    have hend : ([] ++ bytes).length = ([] : CStr).length + (UInt16.ofNat bytes.length).toNat := by
      rw [UInt16.toNat_ofNat_of_lt' hmax]
      simp
    exact options_of_optLoop hrun hend
  · rintro ⟨options, rfl⟩ before info
    have hne : options ≠ [] := by
      rintro rfl
      cases hmin
    have hrun := processOptRr_rdata hne hmax before [] info
    rw [append_nil] at hrun
    exact ⟨_, hrun⟩

def serverOption : OptOption := ⟨3, cstr "ns1", by decide⟩

theorem server_option_inside : ReadsInside serverOption.bytes :=
  (readsInside_iff (by decide) (by decide)).mpr ⟨[serverOption], by simp⟩

def overlongOption : CStr := [0, 3, 0, 100]

theorem overlong_option_copied : takeOption (overlongOption ++ replicate 100 7) 0 Info.zero =
        .ok (100, { Info.zero with nsidLength := 100, nsidPayload := some (replicate 100 7) }) ∧
      ¬ ReadsInside overlongOption := by
  refine ⟨by decide +kernel, fun hinside => ?_⟩
  obtain ⟨info', hrun⟩ := hinside [] Info.zero
  have herror : processOptRr ([] ++ overlongOption) 0 4 Info.zero = .error .memory := by
    decide +kernel
  cases herror.symm.trans hrun

end Amplet.DnsOptions

import Amplet.LengthFraming

/-!
# Control messages on a byte stream

Embedding of the packet functions of `src/common/controlmsg.c`. What `select` and the
BIO do is a script of events, of which each turn of a loop uses one; when it is used up
the call is still waiting. A transfer moves at least one byte, in order. Reading at the
end of the stream returns zero.
-/

namespace Amplet.ControlFraming
open List LengthFraming

inductive BioEvent
  | interrupted
  | retry
  | moved (more : ℕ)
  | failed
deriving DecidableEq

def maxControlMessageSize : ℕ := 1024 * 1024 * 10

inductive WriteResult
  | returned (result : ℤ) (channel : List UInt8) (events : List BioEvent)
  | waiting

def doControlWrite (datalen : ℕ) : List BioEvent → List UInt8 → List UInt8 → WriteResult
  | [], _, _ => .waiting
  | .interrupted :: events, data, channel => doControlWrite datalen events data channel
  | .retry :: events, data, channel =>
    if data = [] then .returned datalen channel events
    else doControlWrite datalen events data channel
  | .moved more :: events, data, channel =>
    if data = [] then .returned (-1) channel events
    else if data.drop (more + 1) = [] then
      .returned datalen (channel ++ data.take (more + 1)) events
    else doControlWrite datalen events (data.drop (more + 1)) (channel ++ data.take (more + 1))
  | .failed :: events, _, channel => .returned (-1) channel events

def writeControlPacket (events : List BioEvent) (data channel : List UInt8) : WriteResult :=
  match doControlWrite 4 events (encodeLength data.length) channel with
  | .waiting => .waiting
  | .returned result channel events =>
    if result ≠ 4 then .returned (-1) channel events
    else
      match doControlWrite data.length events data channel with
      | .waiting => .waiting
      | .returned result channel events =>
        if result ≠ data.length then .returned (-1) channel events
        else .returned data.length channel events

inductive ReadResult
  | returned (result : ℤ) (data stream : List UInt8) (events : List BioEvent)
  | waiting

def doControlRead (datalen : ℕ) : List BioEvent → List UInt8 → List UInt8 → ReadResult
  | [], _, _ => .waiting
  | .interrupted :: events, data, stream => doControlRead datalen events data stream
  | .retry :: events, data, stream =>
    if data.length < datalen then doControlRead datalen events data stream
    else .returned data.length data stream events
  | .moved more :: events, data, stream =>
    let bytes := stream.take (min (more + 1) (datalen - data.length))
    if bytes = [] then .returned 0 data stream events
    else if (data ++ bytes).length < datalen then
      doControlRead datalen events (data ++ bytes) (stream.drop bytes.length)
    else .returned (data ++ bytes).length (data ++ bytes) (stream.drop bytes.length) events
  | .failed :: events, data, stream => .returned (-1) data stream events

def readControlPacket (events : List BioEvent) (stream : List UInt8) : ReadResult :=
  match doControlRead 4 events [] stream with
  | .waiting => .waiting
  | .returned result header stream events =>
    if result ≠ 4 then .returned (-1) [] stream events
    else
      let datalen := decodeLength header
      if maxControlMessageSize < datalen then .returned (-1) [] stream events
      else
        match doControlRead datalen events [] stream with
        | .waiting => .waiting
        | .returned result data stream events =>
          if result ≠ datalen then .returned (-1) [] stream events
          else .returned datalen data stream events

def writePackets : List (List UInt8) → List BioEvent → List UInt8 → WriteResult
  | [], events, channel => .returned 0 channel events
  | message :: messages, events, channel =>
    match writeControlPacket events message channel with
    | .waiting => .waiting
    | .returned result channel events =>
      if result < 0 then .returned result channel events
      else writePackets messages events channel

def readPackets : ℕ → List BioEvent → List UInt8 → List (List UInt8)
  | 0, _, _ => []
  | n + 1, events, stream =>
    match readControlPacket events stream with
    | .waiting => []
    | .returned result data stream events =>
      if 0 < result then data :: readPackets n events stream else []

def Clean (events : List BioEvent) : Prop := .failed ∉ events

instance (events : List BioEvent) : Decidable (Clean events) :=
  inferInstanceAs (Decidable (.failed ∉ events))

def progress (events : List BioEvent) : ℕ :=
  events.countP fun | .moved _ => true | _ => false

@[simp] theorem progress_moved (more : ℕ) (events : List BioEvent) :
    progress (.moved more :: events) = progress events + 1 := by simp [progress]

@[simp] theorem progress_interrupted (events : List BioEvent) :
    progress (.interrupted :: events) = progress events := by simp [progress]

@[simp] theorem progress_retry (events : List BioEvent) : progress (.retry :: events) = progress events := by simp [progress]

variable {events : List BioEvent}

theorem Clean.tail {event : BioEvent} (h : Clean (event :: events)) :
    Clean events := fun hmem => h (mem_cons_of_mem _ hmem)

variable {events' : List BioEvent} {data channel : List UInt8} {result : ℤ}

theorem doControlWrite_returned {datalen : ℕ} {channel' : List UInt8} (hne : data ≠ [])
    (h : doControlWrite datalen events data channel = .returned result channel' events') :
    (result = datalen ∧ channel' = channel ++ data ∧ (Clean events → Clean events') ∧
        progress events ≤ progress events' + data.length) ∨
      (result = -1 ∧ ¬ Clean events) := by
  induction events generalizing data channel with
  | nil => simp [doControlWrite] at h
  | cons event events ih =>
    cases event with
    | interrupted | retry =>
      simp only [doControlWrite, if_neg hne] at h
      rcases ih hne h with ⟨hr, hch, hclean, hprog⟩ | ⟨hr, hbad⟩
      · exact Or.inl ⟨hr, hch, fun hc => hclean hc.tail, by simpa using hprog⟩
      · exact Or.inr ⟨hr, fun hc => hbad hc.tail⟩
    | moved more =>
      have hpos := length_pos_iff.mpr hne
      rw [doControlWrite, if_neg hne] at h
      split_ifs at h with hdone
      · obtain ⟨rfl, rfl, rfl⟩ := WriteResult.returned.inj h
        refine Or.inl ⟨rfl, ?_, Clean.tail, by rw [progress_moved]; omega⟩
        rw [take_of_length_le (drop_eq_nil_iff.mp hdone)]
      · rcases ih hdone h with ⟨hr, hch, hclean, hprog⟩ | ⟨hr, hbad⟩
        · refine Or.inl ⟨hr, ?_, fun hc => hclean hc.tail, ?_⟩
          · rw [hch, append_assoc, take_append_drop]
          · rw [length_drop] at hprog
            rw [progress_moved]
            omega
        · exact Or.inr ⟨hr, fun hc => hbad hc.tail⟩
    | failed =>
      obtain ⟨rfl, -, -⟩ := WriteResult.returned.inj h
      exact Or.inr ⟨rfl, fun hc => hc (mem_cons_self ..)⟩

theorem doControlWrite_waiting {datalen : ℕ} (hne : data ≠ []) (h : doControlWrite datalen events data channel = .waiting) :
    progress events < data.length := by
  induction events generalizing data channel with
  | nil => exact length_pos_iff.mpr hne
  | cons event events ih =>
    cases event with
    | interrupted | retry =>
      simp only [doControlWrite, if_neg hne] at h
      simpa using ih hne h
    | moved more =>
      have hpos := length_pos_iff.mpr hne
      rw [doControlWrite, if_neg hne] at h
      split_ifs at h with hdone
      have hrec := ih hdone h
      rw [length_drop] at hrec
      rw [progress_moved]
      omega
    | failed => simp [doControlWrite] at h

variable {stream stream' : List UInt8}

theorem doControlRead_returned {datalen : ℕ} {data' : List UInt8} (hlt : data.length < datalen)
    (h : doControlRead datalen events data stream = .returned result data' stream' events') :
    ∃ taken, data' = data ++ taken ∧ stream = taken ++ stream' ∧ (Clean events → Clean events') ∧
      ((result = datalen ∧ data'.length = datalen ∧ progress events ≤ progress events' + taken.length) ∨
        (result = 0 ∧ stream' = [] ∧ data'.length < datalen) ∨
        (result = -1 ∧ ¬ Clean events)) := by
  induction events generalizing data stream with
  | nil => simp [doControlRead] at h
  | cons event events ih =>
    cases event with
    | interrupted | retry =>
      simp only [doControlRead, if_pos hlt] at h
      obtain ⟨taken, hdata, hstream, hclean, hend⟩ := ih hlt h
      refine ⟨taken, hdata, hstream, fun hc => hclean hc.tail, ?_⟩
      simp only [progress_interrupted, progress_retry]
      exact hend.imp_right (Or.imp_right (And.imp_right fun hbad hc => hbad hc.tail))
    | moved more =>
      rw [doControlRead] at h
      generalize hbytes : stream.take (min (more + 1) (datalen - data.length)) = bytes at h
      have hlen : bytes.length ≤ datalen - data.length := by
        rw [← hbytes, length_take]
        omega
      have hsplit : stream = bytes ++ stream.drop bytes.length :=
        (prefix_iff_eq_append.mp (hbytes ▸ take_prefix ..)).symm
      split_ifs at h with hempty hmore
      · obtain ⟨rfl, rfl, rfl, rfl⟩ := ReadResult.returned.inj h
        refine ⟨[], by simp, by simp, Clean.tail, Or.inr (Or.inl ⟨rfl, ?_, hlt⟩)⟩
        have hzero := congrArg length (hbytes.trans hempty)
        rw [length_take, length_nil] at hzero
        exact length_eq_zero_iff.mp (by omega)
      · obtain ⟨taken, hdata, hstream, hclean, hend⟩ := ih hmore h
        refine ⟨bytes ++ taken, by rw [hdata, append_assoc],
          by rw [append_assoc, ← hstream]; exact hsplit, fun hc => hclean hc.tail, ?_⟩
        have hpos := length_pos_iff.mpr hempty
        rw [progress_moved, length_append]
        rcases hend with ⟨hr, hl, hp⟩ | hend
        · exact Or.inl ⟨hr, hl, by omega⟩
        · exact Or.inr (hend.imp_right (And.imp_right fun hbad hc => hbad hc.tail))
      · obtain ⟨rfl, rfl, rfl, rfl⟩ := ReadResult.returned.inj h
        have hfull : (data ++ bytes).length = datalen := by
          rw [length_append] at hmore ⊢
          omega
        have hpos := length_pos_iff.mpr hempty
        exact ⟨bytes, rfl, hsplit, Clean.tail, Or.inl ⟨by rw [hfull], hfull, by rw [progress_moved]; omega⟩⟩
    | failed =>
      obtain ⟨rfl, rfl, rfl, rfl⟩ := ReadResult.returned.inj h
      exact ⟨[], by simp, by simp, Clean.tail, Or.inr (Or.inr ⟨rfl, fun hc => hc (mem_cons_self ..)⟩)⟩

theorem doControlRead_waiting {datalen : ℕ} (h : doControlRead datalen events data stream = .waiting) :
    progress events ≤ stream.length ∧ progress events ≤ datalen - data.length - 1 := by
  induction events generalizing data stream with
  | nil => exact ⟨Nat.zero_le _, Nat.zero_le _⟩
  | cons event events ih =>
    cases event with
    | interrupted => simpa using ih h
    | retry =>
      rw [doControlRead] at h
      split_ifs at h with hlt
      simpa using ih h
    | moved more =>
      rw [doControlRead] at h
      generalize hbytes : stream.take (min (more + 1) (datalen - data.length)) = bytes at h
      split_ifs at h with hempty hmore
      have hrec := ih h
      have hpos := length_pos_iff.mpr hempty
      have hle := (hbytes ▸ take_prefix .. : bytes <+: stream).length_le
      rw [length_append] at hmore
      rw [length_drop, length_append] at hrec
      rw [progress_moved]
      omega
    | failed => simp [doControlRead] at h

theorem doControlRead_zero (h : doControlRead 0 events [] stream = .returned result data stream' events') :
    data = [] ∧ stream' = stream := by
  induction events with
  | nil => simp [doControlRead] at h
  | cons event events ih =>
    cases event with
    | interrupted => exact ih h
    | retry | moved | failed =>
      simp [doControlRead] at h
      exact ⟨h.2.1, h.2.2.1.symm⟩

theorem doControlRead_exact (datalen : ℕ) (h : doControlRead datalen events [] stream = .returned datalen data stream' events') :
    stream = data ++ stream' ∧ data.length = datalen := by
  rcases Nat.eq_zero_or_pos datalen with rfl | hpos
  · obtain ⟨rfl, rfl⟩ := doControlRead_zero h
    exact ⟨rfl, rfl⟩
  · obtain ⟨taken, rfl, hstream, -, hend⟩ := doControlRead_returned hpos h
    rcases hend with ⟨-, hl, -⟩ | ⟨hr, -⟩ | ⟨hr, -⟩
    · exact ⟨hstream, hl⟩
    · omega
    · omega

theorem doControlRead_fills {wanted : List UInt8} (rest : List UInt8) (hclean : Clean events)
    (hne : wanted ≠ []) (hprog : wanted.length ≤ progress events) :
    ∃ events', doControlRead wanted.length events [] (wanted ++ rest) =
        .returned wanted.length wanted rest events' ∧ Clean events' ∧
      progress events ≤ progress events' + wanted.length := by
  have hpos := length_pos_iff.mpr hne
  cases h : doControlRead wanted.length events [] (wanted ++ rest) with
  | waiting =>
    have := (doControlRead_waiting h).2
    rw [length_nil] at this
    omega
  | returned result data stream events' =>
    obtain ⟨taken, rfl, hstream, hclean', hend⟩ := doControlRead_returned hpos h
    rcases hend with ⟨rfl, hl, hp⟩ | ⟨-, rfl, hl⟩ | ⟨-, hbad⟩
    · obtain ⟨rfl, rfl⟩ := append_inj hstream hl.symm
      exact ⟨events', rfl, hclean' hclean, hp⟩
    · have := congrArg length hstream
      rw [length_append, append_nil] at this
      omega
    · exact absurd hclean hbad

theorem writeControlPacket_returned {message channel' : List UInt8} (hclean : Clean events) (hne : message ≠ [])
    (h : writeControlPacket events message channel = .returned result channel' events') :
    0 ≤ result ∧ channel' = channel ++ frame message ∧ Clean events' ∧
      progress events ≤ progress events' + (frame message).length := by
  have hheader := encodeLength_ne_nil message.length
  rw [writeControlPacket] at h
  cases hw : doControlWrite 4 events (encodeLength message.length) channel with
  | waiting => simp [hw] at h
  | returned r₁ channel₁ events₁ =>
    rcases doControlWrite_returned hheader hw with ⟨rfl, rfl, hclean₁, hp₁⟩ | ⟨-, hbad⟩
    · cases hb : doControlWrite message.length events₁ message (channel ++ encodeLength message.length) with
      | waiting => simp [hw, hb] at h
      | returned r₂ channel₂ events₂ =>
        rcases doControlWrite_returned hne hb with ⟨rfl, rfl, hclean₂, hp₂⟩ | ⟨-, hbad⟩
        · simp only [hw, hb, Nat.cast_ofNat, ne_eq, not_true_eq_false, if_false] at h
          obtain ⟨rfl, rfl, rfl⟩ := WriteResult.returned.inj h
          rw [encodeLength_length] at hp₁
          exact ⟨Int.natCast_nonneg _, append_assoc .., hclean₂ (hclean₁ hclean), by rw [frame_length]; omega⟩
        · exact absurd (hclean₁ hclean) hbad
    · exact absurd hclean hbad

theorem writeControlPacket_waiting {message : List UInt8} (hclean : Clean events)
    (hne : message ≠ []) (h : writeControlPacket events message channel = .waiting) :
    progress events < (frame message).length := by
  have hheader := encodeLength_ne_nil message.length
  rw [writeControlPacket] at h
  rw [frame_length]
  cases hw : doControlWrite 4 events (encodeLength message.length) channel with
  | waiting =>
    have := doControlWrite_waiting hheader hw
    rw [encodeLength_length] at this
    omega
  | returned r₁ channel₁ events₁ =>
    rcases doControlWrite_returned hheader hw with ⟨rfl, rfl, -, hp₁⟩ | ⟨-, hbad⟩
    · simp only [hw, Nat.cast_ofNat, ne_eq, not_true_eq_false, if_false] at h
      rw [encodeLength_length] at hp₁
      cases hb : doControlWrite message.length events₁ message (channel ++ encodeLength message.length) with
      | waiting =>
        have := doControlWrite_waiting hne hb
        omega
      | returned r₂ channel₂ events₂ =>
        simp only [hb] at h
        split_ifs at h
    · exact absurd hclean hbad

theorem readControlPacket_sound (hr : result ≠ -1) (h : readControlPacket events stream = .returned result data stream' events') :
    stream = frame data ++ stream' ∧ result = data.length ∧ data.length ≤ maxControlMessageSize := by
  rw [readControlPacket] at h
  cases hh : doControlRead 4 events [] stream with
  | waiting => simp [hh] at h
  | returned r₁ header stream₁ events₁ =>
    simp only [hh] at h
    split_ifs at h with hr₁ hmax
    · exact absurd (ReadResult.returned.inj h).1.symm hr
    · exact absurd (ReadResult.returned.inj h).1.symm hr
    · obtain rfl : r₁ = 4 := not_not.mp hr₁
      obtain ⟨rfl, hheader⟩ := doControlRead_exact 4 hh
      cases hb : doControlRead (decodeLength header) events₁ [] stream₁ with
      | waiting => simp [hb] at h
      | returned r₂ body stream₂ events₂ =>
        simp only [hb] at h
        split_ifs at h with hr₂
        · exact absurd (ReadResult.returned.inj h).1.symm hr
        · obtain rfl : r₂ = decodeLength header := not_not.mp hr₂
          obtain ⟨rfl, rfl, rfl, rfl⟩ := ReadResult.returned.inj h
          obtain ⟨rfl, hbody⟩ := doControlRead_exact _ hb
          rw [frame, hbody, encodeLength_decodeLength hheader, append_assoc]
          exact ⟨rfl, rfl, not_lt.mp hmax⟩

theorem readControlPacket_reads {message : List UInt8} (rest : List UInt8) (hclean : Clean events)
    (hne : message ≠ []) (hmax : message.length ≤ maxControlMessageSize)
    (hprog : (frame message).length ≤ progress events) :
    ∃ events', readControlPacket events (frame message ++ rest) = .returned message.length message rest events' ∧ Clean events' ∧
      progress events ≤ progress events' + (frame message).length := by
  have hlt : message.length < 2 ^ 32 := hmax.trans_lt (by decide)
  rw [frame_length] at hprog ⊢
  obtain ⟨events₁, hh, hclean₁, hp₁⟩ := doControlRead_fills (message ++ rest) hclean
    (encodeLength_ne_nil message.length) (by rw [encodeLength_length]; omega)
  rw [encodeLength_length] at hh hp₁
  obtain ⟨events₂, hb, hclean₂, hp₂⟩ := doControlRead_fills rest hclean₁ hne (by omega)
  refine ⟨events₂, ?_, hclean₂, by omega⟩
  rw [readControlPacket, frame, append_assoc, hh]
  simp only [Nat.cast_ofNat, ne_eq, not_true_eq_false, if_false, decodeLength_encodeLength hlt, if_neg (not_lt.mpr hmax), hb]

theorem readControlPacket_ne_waiting (hprog : stream.length < progress events) : readControlPacket events stream ≠ .waiting := by
  intro h
  rw [readControlPacket] at h
  cases hh : doControlRead 4 events [] stream with
  | waiting => exact absurd (doControlRead_waiting hh).1 (by omega)
  | returned r₁ header stream₁ events₁ =>
    simp only [hh] at h
    split_ifs at h with hr₁ hmax
    obtain ⟨taken, -, rfl, -, hend⟩ := doControlRead_returned (by decide) hh
    have hp₁ : progress events ≤ progress events₁ + taken.length := by
      rcases hend with ⟨-, -, hp⟩ | ⟨rfl, -⟩ | ⟨rfl, -⟩
      · exact hp
      · exact absurd (by decide) hr₁
      · exact absurd (by decide) hr₁
    rw [length_append] at hprog
    cases hb : doControlRead (decodeLength header) events₁ [] stream₁ with
    | waiting => exact absurd (doControlRead_waiting hb).1 (by omega)
    | returned r₂ body stream₂ events₂ =>
      simp only [hb] at h
      split_ifs at h

/-- The header announces too much, or the stream ends in the header or the body. -/
def Unreadable (stream : List UInt8) : Prop :=
  stream.length < 4 ∨ maxControlMessageSize < decodeLength (stream.take 4) ∨ stream.length < 4 + decodeLength (stream.take 4)

instance (stream : List UInt8) : Decidable (Unreadable stream) :=
  inferInstanceAs (Decidable (_ ∨ _ ∨ _))

theorem readControlPacket_unreadable (hstream : Unreadable stream)
    (h : readControlPacket events stream = .returned result data stream' events') :
    result = -1 := by
  by_contra hr
  obtain ⟨rfl, -, hmax⟩ := readControlPacket_sound hr h
  have htake : (frame data ++ stream').take 4 = encodeLength data.length := by
    rw [frame, append_assoc]
    exact take_left' (encodeLength_length _)
  rw [Unreadable, htake, decodeLength_encodeLength (hmax.trans_lt (by decide)), length_append, frame_length] at hstream
  omega

variable {messages : List (List UInt8)}

theorem writePackets_returned {channel' : List UInt8} (hclean : Clean events) (hne : ∀ m ∈ messages, m ≠ [])
    (h : writePackets messages events channel = .returned result channel' events') :
    0 ≤ result ∧ channel' = channel ++ frames messages := by
  induction messages generalizing events channel with
  | nil =>
    obtain ⟨rfl, rfl, -⟩ := WriteResult.returned.inj h
    exact ⟨le_rfl, (append_nil _).symm⟩
  | cons message messages ih =>
    obtain ⟨hm, hne⟩ := forall_mem_cons.mp hne
    rw [writePackets] at h
    cases hw : writeControlPacket events message channel with
    | waiting => simp [hw] at h
    | returned r₁ channel₁ events₁ =>
      obtain ⟨hr, rfl, hclean₁, -⟩ := writeControlPacket_returned hclean hm hw
      simp only [hw, if_neg (not_lt.mpr hr)] at h
      rw [frames_cons, ← append_assoc]
      exact ih hclean₁ hne h

theorem writePackets_ne_waiting (channel : List UInt8) (hclean : Clean events)
    (hne : ∀ m ∈ messages, m ≠ []) (hprog : (frames messages).length ≤ progress events) :
    writePackets messages events channel ≠ .waiting := by
  induction messages generalizing events channel with
  | nil => simp [writePackets]
  | cons message messages ih =>
    obtain ⟨hm, hne⟩ := forall_mem_cons.mp hne
    rw [frames_cons, length_append] at hprog
    rw [writePackets]
    cases hw : writeControlPacket events message channel with
    | waiting => exact absurd (writeControlPacket_waiting hclean hm hw) (by omega)
    | returned r₁ channel₁ events₁ =>
      obtain ⟨hr, -, hclean₁, hp⟩ := writeControlPacket_returned hclean hm hw
      simp only [if_neg (not_lt.mpr hr)]
      exact ih channel₁ hclean₁ hne (by omega)

theorem readPackets_unreadable (n : ℕ) (events : List BioEvent) (hstream : Unreadable stream) :
    readPackets n events stream = [] := by
  cases n with
  | zero => rfl
  | succ n =>
    rw [readPackets]
    cases h : readControlPacket events stream with
    | waiting => rfl
    | returned =>
      obtain rfl := readControlPacket_unreadable hstream h
      rfl

theorem readPackets_frames {n : ℕ} {tail : List UInt8} (htail : Unreadable tail)
    (hclean : Clean events) (hlen : ∀ m ∈ messages, 1 ≤ m.length ∧ m.length ≤ maxControlMessageSize)
    (hprog : (frames messages).length ≤ progress events) (hn : messages.length ≤ n) :
    readPackets n events (frames messages ++ tail) = messages := by
  induction messages generalizing n events with
  | nil => exact readPackets_unreadable n events htail
  | cons message messages ih =>
    obtain ⟨⟨hpos, hmax⟩, hlen⟩ := forall_mem_cons.mp hlen
    obtain ⟨n, rfl⟩ := Nat.exists_eq_succ_of_ne_zero (Nat.ne_zero_of_lt hn)
    rw [frames_cons, length_append] at hprog
    obtain ⟨events₁, hread, hclean₁, hp⟩ := readControlPacket_reads
      (frames messages ++ tail) hclean (length_pos_iff.mp hpos) hmax (by omega)
    rw [frames_cons, append_assoc, readPackets, hread]
    simp only [if_pos (Int.natCast_pos.mpr hpos)]
    rw [ih hclean₁ hlen (by omega) (Nat.le_of_succ_le_succ hn)]

/-- Whatever the transport does, packets read are packets sent. -/
theorem readPackets_prefix (n : ℕ) (events : List BioEvent) (hlen : ∀ m ∈ messages, m.length ≤ maxControlMessageSize)
    (hstream : stream <+: frames messages) : readPackets n events stream <+: messages := by
  induction n generalizing messages events stream with
  | zero => exact nil_prefix
  | succ n ih =>
    rw [readPackets]
    cases h : readControlPacket events stream with
    | waiting => exact nil_prefix
    | returned result data stream' events' =>
      dsimp only
      split_ifs with hpos
      · obtain ⟨rfl, -, hmax⟩ := readControlPacket_sound (by omega) h
        have hbound : maxControlMessageSize < 2 ^ 32 := by decide
        obtain ⟨messages', rfl, hrest⟩ := frame_of_prefix (hmax.trans_lt hbound) (fun m hm => (hlen m hm).trans_lt hbound) hstream
        exact cons_prefix_cons.mpr ⟨rfl, ih events' (fun m hm => hlen m (mem_cons_of_mem _ hm)) hrest⟩
      · exact nil_prefix

theorem control_framing {messages : List (List UInt8)} (hlen : ∀ m ∈ messages, 1 ≤ m.length ∧ m.length ≤ maxControlMessageSize) :
    (∀ writes, Clean writes → (frames messages).length ≤ progress writes →
      ∃ result channel unused, writePackets messages writes [] = .returned result channel unused) ∧
    (∀ writes result channel unused, Clean writes → writePackets messages writes [] = .returned result channel unused →
      0 ≤ result ∧
      (∀ reads tail n, Clean reads → Unreadable tail → channel.length ≤ progress reads →
        messages.length ≤ n → readPackets n reads (channel ++ tail) = messages) ∧
      ∀ reads stream n, stream <+: channel → readPackets n reads stream <+: messages) ∧
    (∀ reads stream result data rest unused, result ≠ -1 → readControlPacket reads stream = .returned result data rest unused →
      stream = frame data ++ rest ∧ result = data.length) ∧
    (∀ reads stream, Unreadable stream → (∀ result data rest unused,
        readControlPacket reads stream = .returned result data rest unused → result = -1) ∧
      (stream.length < progress reads → ∃ data rest unused,
        readControlPacket reads stream = .returned (-1) data rest unused)) := by
  have hne : ∀ m ∈ messages, m ≠ [] := fun m hm => length_pos_iff.mp (hlen m hm).1
  refine ⟨?_, ?_, ?_, ?_⟩
  · intro writes hclean hprog
    cases h : writePackets messages writes [] with
    | waiting => exact absurd h (writePackets_ne_waiting [] hclean hne hprog)
    | returned result channel unused => exact ⟨result, channel, unused, rfl⟩
  · intro writes result channel unused hclean h
    obtain ⟨hr, rfl⟩ := writePackets_returned hclean hne h
    exact ⟨hr, fun reads tail n hreads htail hprog hn =>
        readPackets_frames htail hreads hlen hprog hn,
      fun reads stream n hstream =>
        readPackets_prefix n reads (fun m hm => (hlen m hm).2) hstream⟩
  · intro reads stream result data rest unused hr h
    obtain ⟨hstream, hresult, -⟩ := readControlPacket_sound hr h
    exact ⟨hstream, hresult⟩
  · intro reads stream hstream
    refine ⟨fun result data rest unused h => readControlPacket_unreadable hstream h, ?_⟩
    intro hprog
    cases h : readControlPacket reads stream with
    | waiting => exact absurd h (readControlPacket_ne_waiting hprog)
    | returned result data rest unused =>
      obtain rfl := readControlPacket_unreadable hstream h
      exact ⟨data, rest, unused, rfl⟩

theorem two_messages_framed : writePackets [[1, 2, 3], [4]] (.interrupted :: replicate 12 (.moved 1)) [] =
        .returned 0 [0, 0, 0, 3, 1, 2, 3, 0, 0, 0, 1, 4] (replicate 5 (.moved 1)) ∧
      readPackets 2 (.retry :: replicate 12 (.moved 2))
        ([0, 0, 0, 3, 1, 2, 3, 0, 0, 0, 1, 4] ++ [0, 0, 0, 2, 5]) = [[1, 2, 3], [4]] :=
  have hlen : ∀ m ∈ ([[1, 2, 3], [4]] : List (List UInt8)), 1 ≤ m.length ∧ m.length ≤ maxControlMessageSize := by decide
  ⟨rfl, ((control_framing hlen).2.1 _ _ _ _ (by decide : Clean (.interrupted :: replicate 12 (.moved 1))) rfl).2.1 _ _ 2
      (by decide) (by decide) (by decide) (by decide)⟩

end Amplet.ControlFraming

import Amplet.AddressText
import Amplet.AsnLines
import Amplet.TrieWalk

/-!
# Threads that look up AS numbers

Embedding of `amp_asn_worker_thread` in `src/measured/asnsock.c` with the functions it
calls. The worker, the whois server and the other users of the cache take turns; bytes
travel both ways in pieces of any size. No call on a socket fails and the connection
stays open. The cache is any trie at any time.
-/

namespace Amplet.AsnWorker
open List Option Bytes PrefixTrie SocketAddress AddressText AddressTrie TrieWalk AsnLines

/-- `fill_request_trie`: an address of another family is the end marker. -/
def fillRequestTrie (e : Endian) : List SockAddr → IpTrie → Option IpTrie
  | [], _ => none
  | .inet x :: rest, requests => fillRequestTrie e rest (iptrieAdd e requests (.inet x) 24 0)
  | .inet6 x :: rest, requests => fillRequestTrie e rest (iptrieAdd e requests (.inet6 x) 64 0)
  | .other _ _ :: _, requests => some requests

def checkAsnCache (e : Endian) (cache result : IpTrie) (address : SockAddr) : Option IpTrie :=
  let asn := (iptrieLookupAs e cache address).bmod (2 ^ 32)
  if asn < 0 then none else some (iptrieAdd e result address (prefixFor address) asn)

/-- At the head of the loop, at `select`, in the loop of `write_asn_request` with bytes left to
send, or at `read_asn_request`. -/
inductive Phase
  | loop
  | select
  | send (left : CStr) (readable : Bool)
  | recv

structure System where
  list : List SockAddr
  outstanding : ℤ
  buffer : CStr
  result : IpTrie
  phase : Phase
  cache : IpTrie
  /-- bytes on their way to the server -/
  queries : CStr
  /-- queries the server has read and not answered -/
  pending : List CStr
  /-- bytes on their way to the worker -/
  answers : CStr

inductive Event
  | cached (cache : IpTrie) (address : SockAddr)
  | answered (address : SockAddr) (as : ℤ)

def Event.entry (e : Endian) : Event → SockAddr × ℤ
  | .cached cache address => (address, (iptrieLookupAs e cache address).bmod (2 ^ 32))
  | .answered address as => (address, as)

def query (inet : Inet) (address : SockAddr) : CStr := inet.ntop address ++ [newline]

inductive Step (e : Endian) (inet : Inet) : System → List Event → System → Prop
  | others (s : System) (cache : IpTrie) : Step e inet s [] { s with cache := cache }
  | hit {s : System} {address : SockAddr} {rest : List SockAddr} {result : IpTrie}
      (hphase : s.phase = .loop) (hlist : s.list = address :: rest)
      (hcache : checkAsnCache e s.cache s.result address = some result) :
      Step e inet s [.cached s.cache address] { s with list := rest, result := result }
  | miss {s : System} {address : SockAddr} {rest : List SockAddr}
      (hphase : s.phase = .loop) (hlist : s.list = address :: rest)
      (hcache : checkAsnCache e s.cache s.result address = none) :
      Step e inet s [] { s with phase := .select }
  | wait {s : System} (hphase : s.phase = .loop) (hlist : s.list = [])
      (houtstanding : 0 < s.outstanding) : Step e inet s [] { s with phase := .select }
  | writable {s : System} {address : SockAddr} {rest : List SockAddr} (hphase : s.phase = .select)
      (hlist : s.list = address :: rest) (readable : Bool)
      (hread : readable = true → 0 < s.outstanding ∧ s.answers ≠ []) :
      Step e inet s [] { s with phase := .send (query inet address) readable }
  | readable {s : System} (hphase : s.phase = .select) (houtstanding : 0 < s.outstanding)
      (hanswers : s.answers ≠ []) : Step e inet s [] { s with phase := .recv }
  | send {s : System} {data left : CStr} {readable : Bool}
      (hphase : s.phase = .send (data ++ left) readable) :
      Step e inet s [] { s with phase := .send left readable, queries := s.queries ++ data }
  | sent {s : System} {readable : Bool} (hphase : s.phase = .send [] readable) :
      Step e inet s [] { s with
        outstanding := s.outstanding + 1
        list := s.list.tail
        phase := if readable then .recv else .loop }
  | recv {s : System} {data rest buffer : CStr} {result cache : IpTrie} {outstanding : ℤ}
      (hphase : s.phase = .recv) (hanswers : s.answers = data ++ rest) (hdata : data ≠ [])
      (hroom : data.length ≤ bufferLen - s.buffer.length - 1)
      (hprocess : processBuffer e inet (s.buffer ++ data).length ⟨s.result, some s.cache, s.buffer ++ data, some s.outstanding⟩ =
          some ⟨result, some cache, buffer, some outstanding⟩) :
      Step e inet s [] { s with
        answers := rest, buffer := buffer, result := result, cache := cache
        outstanding := outstanding, phase := .loop }
  | accept {s : System} {text rest : CStr} (hqueries : s.queries = text ++ newline :: rest)
      (htext : newline ∉ text) :
      Step e inet s [] { s with queries := rest, pending := s.pending ++ [text] }
  | answer {s : System} {before after : List CStr} {text : CStr} {address : SockAddr} {as : ℤ}
      {line : CStr} (hpending : s.pending = before ++ text :: after)
      (haddress : inet.parse text = some address)
      (hline : Line.Valid inet ⟨line, some (address, as)⟩) :
      Step e inet s [.answered address as] { s with
        pending := before ++ after, answers := s.answers ++ (line ++ [newline]) }
  | header {s : System} {line : CStr} (hline : Line.Valid inet ⟨line, none⟩) :
      Step e inet s [] { s with answers := s.answers ++ (line ++ [newline]) }

inductive Reach (e : Endian) (inet : Inet) (incoming : List SockAddr) :
    System → List Event → Prop
  | start {requests : IpTrie} (hfill : fillRequestTrie e incoming ⟨.null, .null⟩ = some requests)
      (cache : IpTrie) :
      Reach e inet incoming ⟨iptrieToList requests, 0, [], ⟨.null, .null⟩, .loop, cache, [], [], []⟩ []
  | step {s s' : System} {log new : List Event} (hreach : Reach e inet incoming s log)
      (hstep : Step e inet s new s') : Reach e inet incoming s' (log ++ new)

def System.Left (s : System) : Prop := s.phase = .loop ∧ s.list = [] ∧ s.outstanding ≤ 0

structure Lawful (inet : Inet) : Prop where
  parse_ntop : ∀ a : SockAddr, a.width ≠ 0 → inet.parse (inet.ntop a) = some a
  single : ∀ a : SockAddr, a.width ≠ 0 → newline ∉ inet.ntop a

def unsent : Phase → CStr
  | .send left _ => left
  | _ => []

def writing : Phase → ℤ
  | .send _ _ => 1
  | _ => 0

def reading : Phase → Bool
  | .send _ readable => readable
  | .recv => true
  | _ => false

def upcoming (s : System) : List SockAddr :=
  match s.phase with
  | .send _ _ => s.list.tail
  | _ => s.list

/-- Every listed address is in one place: added to the result, in a line of the
server, with the server, on the way to it, or still in the list. -/
structure Tracks (e : Endian) (inet : Inet) (listed : List SockAddr) (s : System)
    (log : List Event) (added : List (SockAddr × ℤ)) (lines : List Line)
    (asked sent : List SockAddr) : Prop where
  result : s.result = added.foldl (addEntry e) ⟨.null, .null⟩
  received : s.buffer ++ s.answers = stream lines
  unfinished : newline ∉ s.buffer
  valid : ∀ l ∈ lines, l.Valid inet
  pending : s.pending = asked.map inet.ntop
  queries : s.queries ++ unsent s.phase = (sent.map (query inet)).flatten
  outstanding : s.outstanding + writing s.phase = (entries lines).length + asked.length + sent.length
  places : (added.map Prod.fst ++ ((entries lines).map Prod.fst ++ (asked ++ (sent ++ upcoming s)))).Perm listed
  logged : ∀ x ∈ added ++ entries lines, x ∈ log.map (Event.entry e)
  current : writing s.phase = 1 → s.list ≠ []
  ready : reading s.phase = true → s.answers ≠ []

def Inv (e : Endian) (inet : Inet) (listed : List SockAddr) (s : System) (log : List Event) : Prop :=
  ∃ added lines asked sent, Tracks e inet listed s log added lines asked sent

section Steps

variable {e : Endian} {inet : Inet} {listed : List SockAddr} {s s' : System} {log new : List Event}
  {result : IpTrie} {readable : Bool} {data rest : CStr}

variable {address : SockAddr}

theorem checkAsnCache_some {cache result' : IpTrie} (h : checkAsnCache e cache result address = some result') :
    result' = addEntry e result ((Event.cached cache address).entry e) := by
  simp only [checkAsnCache] at h
  split_ifs at h
  exact (some.inj h).symm

theorem logged_append {x : SockAddr × ℤ} (h : x ∈ log.map (Event.entry e)) : x ∈ (log ++ new).map (Event.entry e) := by
  rw [map_append]
  exact mem_append_left _ h

variable {added : List (SockAddr × ℤ)} {asked : List SockAddr}

section

variable {lines : List Line} {sent : List SockAddr}
  (h : Tracks e inet listed s log added lines asked sent)
include h

theorem Tracks.hit {rest : List SockAddr} (hphase : s.phase = .loop) (hlist : s.list = address :: rest)
    (hcache : checkAsnCache e s.cache s.result address = some result) :
    Tracks e inet listed { s with list := rest, result := result }
      (log ++ [.cached s.cache address]) (added ++ [(Event.cached s.cache address).entry e]) lines
      asked sent := by
  refine { h with result := ?_, places := ?_, logged := ?_, current := ?_ }
  · rw [foldl_append, ← h.result]
    exact checkAsnCache_some hcache
  · have hplaces := h.places
    simp only [upcoming, hphase, hlist] at hplaces ⊢
    refine Perm.trans ?_ hplaces
    classical
    rw [perm_iff_count]
    intro a
    simp only [map_append, map_cons, map_nil, count_append, count_cons, count_nil, Event.entry]
    omega
  · intro x hx
    simp only [mem_append, mem_singleton] at hx
    rcases hx with (hx | rfl) | hx
    · exact logged_append (h.logged x (mem_append_left _ hx))
    · simp
    · exact logged_append (h.logged x (mem_append_right _ hx))
  · simp [writing, hphase]

theorem Tracks.goto {phase : Phase} (hunsent : unsent phase = unsent s.phase) (hwriting : writing phase = writing s.phase)
    (hupcoming : upcoming { s with phase := phase } = upcoming s)
    (hready : reading phase = true → s.answers ≠ []) :
    Tracks e inet listed { s with phase := phase } (log ++ []) added lines asked sent := by
  refine { h with queries := ?_, outstanding := ?_, places := ?_, logged := ?_, current := ?_, ready := hready }
  · rw [hunsent]
    exact h.queries
  · rw [hwriting]
    exact h.outstanding
  · rw [hupcoming]
    exact h.places
  · exact fun x hx => logged_append (h.logged x hx)
  · rw [hwriting]
    exact h.current

theorem Tracks.write {rest : List SockAddr} (hphase : s.phase = .select)
    (hlist : s.list = address :: rest) (hread : readable = true → s.answers ≠ []) :
    Tracks e inet listed { s with phase := .send (query inet address) readable } (log ++ []) added
      lines asked (sent ++ [address]) := by
  have hqueries := h.queries
  have houtstanding := h.outstanding
  have hplaces := h.places
  simp only [hphase, unsent, writing, upcoming, hlist, append_nil] at hqueries houtstanding hplaces
  refine { h with
    queries := ?_, outstanding := ?_, places := ?_, logged := ?_, current := ?_, ready := hread }
  · simp [unsent, hqueries]
  · simp only [writing, length_append, length_singleton]
    push_cast
    omega
  · simpa [upcoming, hlist] using hplaces
  · exact fun x hx => logged_append (h.logged x hx)
  · simp [hlist]

theorem Tracks.send {left : CStr} (hphase : s.phase = .send (data ++ left) readable) :
    Tracks e inet listed { s with phase := .send left readable, queries := s.queries ++ data }
      (log ++ []) added lines asked sent := by
  obtain ⟨list, outstanding, buffer, result, phase, cache, queries, pending, answers⟩ := s
  subst hphase
  refine { h with queries := ?_, logged := fun x hx => logged_append (h.logged x hx) }
  simpa [unsent] using h.queries

end

theorem Tracks.sent {lines : List Line} {sent : List SockAddr}
    (h : Tracks e inet listed s log added lines asked sent) (hphase : s.phase = .send [] readable) :
    Tracks e inet listed { s with
      outstanding := s.outstanding + 1
      list := s.list.tail
      phase := if readable then .recv else .loop } (log ++ []) added lines asked sent := by
  obtain ⟨list, outstanding, buffer, result, phase, cache, queries, pending, answers⟩ := s
  subst hphase
  have hlogged : ∀ x ∈ added ++ entries lines, x ∈ (log ++ []).map (Event.entry e) :=
    fun x hx => logged_append (h.logged x hx)
  cases readable with
  | false =>
    refine { h with outstanding := ?_, logged := hlogged, current := ?_, ready := ?_ }
    · simpa [writing] using h.outstanding
    · simp [writing]
    · simp [reading]
  | true =>
    refine { h with outstanding := ?_, logged := hlogged, current := ?_ }
    · simpa [writing] using h.outstanding
    · simp [writing]

section

variable {lines : List Line} {sent : List SockAddr} (hinet : Lawful inet)
  (hlisted : ∀ a ∈ listed, a.width ≠ 0) (h : Tracks e inet listed s log added lines asked sent)
include hinet hlisted h

theorem Tracks.accept {text : CStr} (hqueries : s.queries = text ++ newline :: rest) (htext : newline ∉ text) :
    ∃ asked' sent', Tracks e inet listed { s with queries := rest, pending := s.pending ++ [text] }
      (log ++ []) added lines asked' sent' := by
  have hsent := h.queries
  rw [hqueries] at hsent
  cases sent with
  | nil => simp at hsent
  | cons address sent =>
    have hip : address.width ≠ 0 := hlisted address (h.places.mem_iff.mp (by simp))
    rw [map_cons, flatten_cons, query, append_assoc, append_assoc, cons_append, singleton_append] at hsent
    have htake := congrArg (takeWhile (· ≠ newline)) hsent
    rw [(Delimited.takeWhile_ne_append htext (by simp)).1,
      (Delimited.takeWhile_ne_append (hinet.single address hip) (by simp)).1] at htake
    obtain rfl := htake
    have hrest := (cons.inj (append_cancel_left hsent)).2
    refine ⟨asked ++ [address], sent, { h with
      pending := ?_, queries := hrest, outstanding := ?_, places := ?_
      logged := fun x hx => logged_append (h.logged x hx) }⟩
    · simp [h.pending]
    · have houtstanding := h.outstanding
      simp only [length_cons, length_append, length_nil] at houtstanding ⊢
      push_cast at houtstanding ⊢
      omega
    · simpa [upcoming] using h.places

theorem Tracks.answer {before after : List CStr} {text line : CStr} {as : ℤ}
    (hpending : s.pending = before ++ text :: after) (haddress : inet.parse text = some address)
    (hline : Line.Valid inet ⟨line, some (address, as)⟩) :
    ∃ asked', Tracks e inet listed { s with
      pending := before ++ after, answers := s.answers ++ (line ++ [newline]) }
      (log ++ [.answered address as]) added (lines ++ [⟨line, some (address, as)⟩]) asked' sent := by
  have hasked := h.pending
  rw [hpending] at hasked
  obtain ⟨before', after', rfl, hbefore, hafter⟩ := map_eq_append_iff.mp hasked.symm
  obtain ⟨address', after', rfl, htext, hafter⟩ := map_eq_cons_iff.mp hafter
  have hip : address'.width ≠ 0 := hlisted address' (h.places.mem_iff.mp (by simp))
  obtain rfl : address' = address := by
    rw [← htext, hinet.parse_ntop address' hip] at haddress
    exact some.inj haddress
  have hentries : entries (lines ++ [⟨line, some (address', as)⟩]) = entries lines ++ [(address', as)] := by
    simp [entries]
  refine ⟨before' ++ after', { h with
    received := ?_, valid := ?_, pending := ?_, outstanding := ?_, places := ?_, logged := ?_
    ready := fun _ => by simp }⟩
  · rw [← append_assoc, h.received]
    simp [stream, Line.bytes]
  · intro l hl
    rcases mem_append.mp hl with hl | hl
    · exact h.valid l hl
    · rw [mem_singleton.mp hl]
      exact hline
  · simp [hbefore, hafter]
  · have houtstanding := h.outstanding
    simp only [hentries, length_append, length_cons, length_nil] at houtstanding ⊢
    push_cast at houtstanding ⊢
    omega
  · refine Perm.trans ?_ h.places
    classical
    rw [hentries, perm_iff_count]
    intro a
    simp only [upcoming, map_append, map_cons, map_nil, count_append, count_cons, count_nil]
    omega
  · intro x hx
    rw [hentries, ← append_assoc] at hx
    rcases mem_append.mp hx with hx | hx
    · exact logged_append (h.logged x hx)
    · rw [mem_singleton.mp hx]
      simp [Event.entry]

end

section

variable {lines : List Line} {sent : List SockAddr}
  (h : Tracks e inet listed s log added lines asked sent)
include h

theorem Tracks.header {line : CStr} (hline : Line.Valid inet ⟨line, none⟩) :
    Tracks e inet listed { s with answers := s.answers ++ (line ++ [newline]) }
      (log ++ []) added (lines ++ [⟨line, none⟩]) asked sent := by
  have hentries : entries (lines ++ [⟨line, none⟩]) = entries lines := by
    simp [entries]
  refine { h with
    received := ?_, valid := ?_, outstanding := ?_, places := ?_, logged := ?_
    ready := fun _ => by simp }
  · rw [← append_assoc, h.received]
    simp [stream, Line.bytes]
  · intro l hl
    rcases mem_append.mp hl with hl | hl
    · exact h.valid l hl
    · rw [mem_singleton.mp hl]
      exact hline
  · rw [hentries]
    exact h.outstanding
  · rw [hentries]
    exact h.places
  · rw [hentries]
    exact fun x hx => logged_append (h.logged x hx)

theorem Tracks.room (hanswers : s.answers ≠ []) : 1 ≤ bufferLen - s.buffer.length - 1 := by
  have hstart := stream_start h.valid h.received h.unfinished hanswers
  omega

theorem Tracks.parse (hanswers : s.answers = data ++ rest) :
    ∃ whole left tail, lines = whole ++ left ∧ newline ∉ tail ∧ tail ++ rest = stream left ∧
      processBuffer e inet (s.buffer ++ data).length ⟨s.result, some s.cache, s.buffer ++ data, some s.outstanding⟩ =
          some (Parsing.after ⟨s.result, some s.cache, s.buffer ++ data, some s.outstanding⟩ e (entries whole) tail) := by
  have hreceived := h.received
  rw [hanswers, ← append_assoc] at hreceived
  obtain ⟨whole, left, tail, rfl, hwhole, htail, hleft⟩ := stream_split h.valid hreceived
  refine ⟨whole, left, tail, rfl, htail, hleft, ?_⟩
  have hvalid : ∀ l ∈ whole, l.Valid inet := fun l hl => h.valid l (mem_append_left _ hl)
  refine processBuffer_lines hvalid htail ?_ ?_ hwhole
  · intro hmem
    refine zero_notMem_stream (fun l hl => h.valid l (mem_append_right _ hl)) ?_
    rw [← hleft]
    exact mem_append_left _ hmem
  · rw [hwhole, length_append]
    exact (length_le_stream whole).trans (Nat.le_add_right _ _)

theorem Tracks.recv {buffer : CStr} {cache : IpTrie} {outstanding : ℤ} (hphase : s.phase = .recv)
    (hanswers : s.answers = data ++ rest)
    (hprocess : processBuffer e inet (s.buffer ++ data).length ⟨s.result, some s.cache, s.buffer ++ data, some s.outstanding⟩ = some ⟨result, some cache, buffer, some outstanding⟩)
    :
    ∃ added' lines', Tracks e inet listed { s with
        answers := rest, buffer := buffer, result := result, cache := cache
        outstanding := outstanding, phase := .loop } (log ++ []) added' lines' asked sent := by
  obtain ⟨whole, left, tail, rfl, htail, hleft, hparse⟩ := h.parse hanswers
  rw [hprocess] at hparse
  simp only [Parsing.after, map_some, some.injEq, Parsing.mk.injEq] at hparse
  obtain ⟨rfl, -, rfl, rfl⟩ := hparse
  have hentries : entries (whole ++ left) = entries whole ++ entries left := filterMap_append
  have houtstanding := h.outstanding
  have hplaces := h.places
  have hqueries := h.queries
  simp only [hphase, writing, unsent, upcoming, hentries, length_append] at houtstanding hplaces hqueries
  refine ⟨added ++ entries whole, left, { h with
    result := ?_, received := hleft, unfinished := htail, valid := ?_, queries := hqueries
    outstanding := ?_, places := ?_, logged := ?_, current := ?_, ready := ?_ }⟩
  · rw [foldl_append, ← h.result]
  · exact fun l hl => h.valid l (mem_append_right _ hl)
  · simp only [writing]
    push_cast at houtstanding
    omega
  · simpa [upcoming] using hplaces
  · intro x hx
    refine logged_append (h.logged x ?_)
    rw [hentries]
    simpa using hx
  · simp [writing]
  · simp [reading]

end

theorem Inv.step (hinet : Lawful inet) (hlisted : ∀ a ∈ listed, a.width ≠ 0)
    (h : Inv e inet listed s log) (hstep : Step e inet s new s') :
    Inv e inet listed s' (log ++ new) := by
  obtain ⟨added, lines, asked, sent, h⟩ := h
  cases hstep with
  | others cache =>
    exact ⟨added, lines, asked, sent, { h with logged := fun x hx => logged_append (h.logged x hx) }⟩
  | hit hphase hlist hcache => exact ⟨_, _, _, _, h.hit hphase hlist hcache⟩
  | miss hphase _ _ | wait hphase _ _ =>
    exact ⟨_, _, _, _, h.goto (by simp [hphase, unsent]) (by simp [hphase, writing])
      (by simp [upcoming, hphase]) (by simp [reading])⟩
  | writable hphase hlist readable hread =>
    exact ⟨_, _, _, _, h.write hphase hlist fun hr => (hread hr).2⟩
  | readable hphase _ hanswers =>
    exact ⟨_, _, _, _, h.goto (by simp [hphase, unsent]) (by simp [hphase, writing])
      (by simp [upcoming, hphase]) fun _ => hanswers⟩
  | send hphase => exact ⟨_, _, _, _, h.send hphase⟩
  | sent hphase => exact ⟨_, _, _, _, h.sent hphase⟩
  | recv hphase hanswers _ _ hprocess =>
    obtain ⟨added', lines', h'⟩ := h.recv hphase hanswers hprocess
    exact ⟨added', lines', _, _, h'⟩
  | accept hqueries htext =>
    obtain ⟨asked', sent', h'⟩ := h.accept hinet hlisted hqueries htext
    exact ⟨_, _, asked', sent', h'⟩
  | answer hpending haddress hline =>
    obtain ⟨asked', h'⟩ := h.answer hinet hlisted hpending haddress hline
    exact ⟨_, _, asked', _, h'⟩
  | header hline => exact ⟨_, _, _, _, h.header hline⟩

end Steps

def requested (incoming : List SockAddr) : List SockAddr := incoming.takeWhile (·.width ≠ 0)

def SamePrefix (e : Endian) (a b : SockAddr) : Prop :=
  a.family = b.family ∧ Agree (SockAddr.bit e) (prefixFor a).toNat a b

instance (e : Endian) (a b : SockAddr) : Decidable (SamePrefix e a b) :=
  inferInstanceAs (Decidable (_ ∧ _))

theorem prefixFor_eq {a b : SockAddr} (h : a.family = b.family) (hip : a.width ≠ 0) : prefixFor a = prefixFor b := by
  rcases SockAddr.same_family h hip with ⟨x, y, rfl, rfl⟩ | ⟨x, y, rfl, rfl⟩ <;> rfl

section Prefixes

variable {e : Endian} {a b c : SockAddr}

def asnLengths : PrefixLengths := ⟨24, 64⟩

theorem prefixFor_of (hip : a.width ≠ 0) : prefixFor a = asnLengths.of a := by
  cases a with
  | inet => rfl
  | inet6 => rfl
  | other => exact absurd rfl hip

theorem samePrefix_iff (hip : a.width ≠ 0) : SamePrefix e a b ↔ SameEntry e asnLengths a b := by
  rw [SamePrefix, SameEntry, prefixFor_of hip]

theorem SamePrefix.symm (h : SamePrefix e a b) (hip : a.width ≠ 0) : SamePrefix e b a :=
  (samePrefix_iff (SockAddr.width_eq h.1 hip ▸ hip)).mpr (((samePrefix_iff hip).mp h).symm hip)

theorem SamePrefix.trans (h : SamePrefix e a b) (h' : SamePrefix e b c) (hip : a.width ≠ 0) :
    SamePrefix e a c :=
  (samePrefix_iff hip).mpr (((samePrefix_iff hip).mp h).trans ((samePrefix_iff (SockAddr.width_eq h.1 hip ▸ hip)).mp h') hip)

end Prefixes

def calls (xs : List (SockAddr × ℤ)) : List AddCall := xs.map fun x => ⟨x.1, prefixFor x.1, x.2⟩

theorem foldl_addEntry (e : Endian) (xs : List (SockAddr × ℤ)) : xs.foldl (addEntry e) ⟨.null, .null⟩ = addAll e (calls xs) := by
  rw [addAll, calls, foldl_map]
  rfl

variable {e : Endian} {requests : IpTrie}

theorem iptrieLeaves_calls {xs : List (SockAddr × ℤ)} (hxs : ∀ x ∈ xs, x.1.width ≠ 0) :
    (iptrieLeaves (addAll e (calls xs))).Pairwise (fun c d => ¬ SamePrefix e c.address d.address) ∧
      (∀ c ∈ iptrieLeaves (addAll e (calls xs)), c.address.width ≠ 0 ∧ c.prefixLen = prefixFor c.address ∧
        ∃ x ∈ xs, SamePrefix e x.1 c.address ∧ x.2 = c.as) ∧
      ∀ x ∈ xs, ∃ c ∈ iptrieLeaves (addAll e (calls xs)), SamePrefix e c.address x.1 := by
  have hadds : ∀ d ∈ calls xs, d.address.width ≠ 0 → d.prefixLen = asnLengths.of d.address := by
    intro d hd hip
    obtain ⟨x, hx, rfl⟩ := mem_map.mp hd
    exact prefixFor_of hip
  obtain ⟨hpairwise, hleaf, hadd⟩ := iptrieLeaves_entries (e := e) hadds
  refine ⟨hpairwise.imp_of_mem ?_, fun c hc => ?_, fun x hx => ?_⟩
  · intro c d hc _ hne hsame
    exact hne ((samePrefix_iff (hleaf c hc).1).mp hsame)
  · obtain ⟨hip, hbits, hrecent⟩ := hleaf c hc
    refine ⟨hip, hbits.trans (prefixFor_of hip).symm, ?_⟩
    obtain ⟨d, hd, hsame, hagree, has⟩ := recentAs_some hrecent
    obtain ⟨x, hx, rfl⟩ := mem_map.mp hd
    have hof : asnLengths.of c.address = asnLengths.of x.1 := PrefixLengths.of_eq hsame hip
    exact ⟨x, hx, (samePrefix_iff (hxs x hx)).mpr ⟨hsame.symm, hof ▸ hagree⟩, has⟩
  · obtain ⟨c, hc, hsame⟩ := hadd _ (mem_map_of_mem hx) (hxs x hx)
    exact ⟨c, hc, (samePrefix_iff (hleaf c hc).1).mpr hsame⟩

variable {incoming : List SockAddr}

theorem fillRequestTrie_eq {trie : IpTrie} (h : fillRequestTrie e incoming trie = some requests) :
    requests = ((requested incoming).map fun a => (a, 0)).foldl (addEntry e) trie := by
  induction incoming generalizing trie with
  | nil => cases h
  | cons a incoming ih =>
    cases a with
    | inet x => exact ih h
    | inet6 x => exact ih h
    | other family hfamily => exact (some.inj h).symm

theorem requested_ip {a : SockAddr} (h : a ∈ requested incoming) : a.width ≠ 0 := by
  simpa using mem_takeWhile_imp h

theorem listed_spec (h : fillRequestTrie e incoming ⟨.null, .null⟩ = some requests) :
    (∀ a ∈ iptrieToList requests, a.width ≠ 0 ∧ ∃ b ∈ requested incoming, SamePrefix e b a) ∧
      ∀ b ∈ requested incoming, ∃ a ∈ iptrieToList requests, SamePrefix e a b := by
  have hxs : ∀ x ∈ (requested incoming).map fun a => (a, (0 : ℤ)), x.1.width ≠ 0 := by
    intro x hx
    obtain ⟨a, ha, rfl⟩ := mem_map.mp hx
    exact requested_ip ha
  obtain ⟨-, hleaf, hadd⟩ := iptrieLeaves_calls (e := e) hxs
  rw [← foldl_addEntry, ← fillRequestTrie_eq h] at hleaf hadd
  constructor
  · intro a ha
    obtain ⟨c, hc, rfl⟩ := mem_map.mp (mem_reverse.mp ha)
    obtain ⟨hip, -, x, hx, hsame, -⟩ := hleaf c hc
    obtain ⟨b, hb, rfl⟩ := mem_map.mp hx
    exact ⟨hip, b, hb, hsame⟩
  · intro b hb
    obtain ⟨c, hc, hsame⟩ := hadd (b, 0) (mem_map_of_mem hb)
    exact ⟨c.address, mem_reverse.mpr (mem_map_of_mem hc), hsame⟩

theorem Reach.inv {inet : Inet} {s : System} {log : List Event} (hinet : Lawful inet) (h : Reach e inet incoming s log) :
    ∃ requests, fillRequestTrie e incoming ⟨.null, .null⟩ = some requests ∧ Inv e inet (iptrieToList requests) s log := by
  induction h with
  | start hfill cache =>
    refine ⟨_, hfill, [], [], [], [], rfl, rfl, not_mem_nil, ?_, rfl, rfl, rfl, .refl _, ?_, ?_, ?_⟩
    · simp
    · simp [entries]
    · simp [writing]
    · simp [reading]
  | step _ hstep ih =>
    obtain ⟨requests, hfill, hinv⟩ := ih
    exact ⟨requests, hfill, hinv.step hinet (fun a ha => ((listed_spec hfill).1 a ha).1) hstep⟩

/-- Nothing is outstanding, and the result has one leaf for each requested prefix, with an AS
number that the cache or the server gave for it. -/
structure Complete (e : Endian) (incoming : List SockAddr) (log : List Event) (s : System) :
    Prop where
  outstanding : s.outstanding = 0
  leaf : ∀ a ∈ requested incoming, (iptrieLeaves s.result).countP (fun c => SamePrefix e c.address a) = 1
  entry : ∀ c ∈ iptrieLeaves s.result, c.prefixLen = prefixFor c.address ∧ (∃ a ∈ requested incoming, SamePrefix e a c.address) ∧
    ∃ event ∈ log, SamePrefix e (event.entry e).1 c.address ∧ (event.entry e).2 = c.as

theorem Reach.complete {inet : Inet} (hinet : Lawful inet) {s : System} {log : List Event}
    (h : Reach e inet incoming s log) (hleft : s.Left) : Complete e incoming log s := by
  obtain ⟨requests, hfill, added, lines, asked, sent, hinv⟩ := h.inv hinet
  obtain ⟨hlisted, hrequested⟩ := listed_spec hfill
  obtain ⟨hphase, hlist, hzero⟩ := hleft
  have houtstanding := hinv.outstanding
  simp only [hphase, writing] at houtstanding
  have hlines : (entries lines) = [] := eq_nil_of_length_eq_zero (by omega)
  have hasked : asked = [] := eq_nil_of_length_eq_zero (by omega)
  have hsent : sent = [] := eq_nil_of_length_eq_zero (by omega)
  have hplaces := hinv.places
  simp only [upcoming, hphase, hlist, hlines, hasked, hsent, map_nil, append_nil] at hplaces
  have hxs : ∀ x ∈ added, x.1.width ≠ 0 := fun x hx =>
    (hlisted x.1 (hplaces.mem_iff.mp (mem_map_of_mem hx))).1
  obtain ⟨hpairwise, hleaf, hadd⟩ := iptrieLeaves_calls (e := e) hxs
  rw [← foldl_addEntry, ← hinv.result] at hpairwise hleaf hadd
  refine ⟨by omega, fun a ha => countP_eq_one (hpairwise.imp_of_mem ?_) ?_, fun c hc => ?_⟩
  · rintro c d hc hd hne ⟨hca, hda⟩
    exact hne (hca.trans (hda.symm (hleaf d hd).1) (hleaf c hc).1)
  · obtain ⟨b, hb, hsame⟩ := hrequested a ha
    obtain ⟨x, hx, rfl⟩ := mem_map.mp (hplaces.mem_iff.mpr hb)
    obtain ⟨c, hc, hsame'⟩ := hadd x hx
    exact ⟨c, hc, hsame'.trans hsame (hleaf c hc).1⟩
  · obtain ⟨hip, hbits, x, hx, hsame, has⟩ := hleaf c hc
    obtain ⟨-, a, ha, hsame'⟩ := hlisted x.1 (hplaces.mem_iff.mp (mem_map_of_mem hx))
    obtain ⟨event, hevent, heq⟩ := mem_map.mp (hinv.logged x (mem_append_left _ hx))
    exact ⟨hbits, ⟨a, ha, hsame'.trans hsame (requested_ip ha)⟩, event, hevent, by rwa [heq], by rw [heq, has]⟩

theorem Reach.readable {inet : Inet} (hinet : Lawful inet) {s : System} {log : List Event}
    (h : Reach e inet incoming s log) (hphase : s.phase = .recv) :
    s.answers ≠ [] ∧ 1 ≤ bufferLen - s.buffer.length - 1 ∧
      ∀ data rest, s.answers = data ++ rest → ∃ result cache buffer outstanding, processBuffer e inet (s.buffer ++ data).length
          ⟨s.result, some s.cache, s.buffer ++ data, some s.outstanding⟩ =
            some ⟨result, some cache, buffer, some outstanding⟩ := by
  obtain ⟨requests, hfill, added, lines, asked, sent, hinv⟩ := h.inv hinet
  have hanswers : s.answers ≠ [] := hinv.ready (by rw [hphase]; rfl)
  refine ⟨hanswers, hinv.room hanswers, fun data rest hsplit => ?_⟩
  obtain ⟨whole, left, tail, -, -, -, hparse⟩ := hinv.parse hsplit
  exact ⟨_, _, _, _, hparse⟩

/-- In any interleaving with the server and other users of the cache, no read gets stuck, and the
answers are complete when the worker leaves its loop. -/
theorem asn_requests_complete {e : Endian} {inet : Inet} (hinet : Lawful inet)
    {incoming : List SockAddr} {s : System} {log : List Event}
    (h : Reach e inet incoming s log) :
    (s.Left → Complete e incoming log s) ∧ (s.phase = .recv → s.answers ≠ [] ∧ 1 ≤ bufferLen - s.buffer.length - 1 ∧
        ∀ data rest, s.answers = data ++ rest → ∃ result cache buffer outstanding, processBuffer e inet (s.buffer ++ data).length
            ⟨s.result, some s.cache, s.buffer ++ data, some s.outstanding⟩ =
              some ⟨result, some cache, buffer, some outstanding⟩) :=
  ⟨h.complete hinet, h.readable hinet⟩

def libcInet (e : Endian) : Inet := ⟨inetPton4 e, inetPton6 e, inetNtop e⟩

theorem libcInet_lawful (e : Endian) : Lawful (libcInet e) := by
  refine ⟨fun a hip => ?_, fun a _ => inetNtop_notMem e a (by decide) (by decide) (by decide)⟩
  cases a with
  | inet x =>
    have hparse : (libcInet e).pton4 ((libcInet e).ntop (.inet x)) = some x := inetPton4_inetNtop e x
    rw [Inet.parse, hparse]
  | inet6 v =>
    have hfour : (libcInet e).pton4 ((libcInet e).ntop (.inet6 v)) = none := inetPton4_groups e v
    have hparse : (libcInet e).pton6 ((libcInet e).ntop (.inet6 v)) = some v := inetPton6_inetNtop e v
    rw [Inet.parse, hfour, hparse]
    rfl
  | other family h => exact absurd rfl hip

def documentationHost : SockAddr := .inet 0x010200c0#32

theorem ntop_documentationHost : (libcInet .little).ntop documentationHost = cstr "192.0.2.1" := by
  decide +kernel

theorem parse_documentationHost : (libcInet .little).parse (cstr "192.0.2.1") = some documentationHost := by
  rw [← ntop_documentationHost]
  exact (libcInet_lawful .little).parse_ntop _ (SockAddr.width_ne_zero (Or.inl rfl))

def documentationLine : CStr := cstr "64500   | 192.0.2.1        | EXAMPLE-AS"

theorem documentationLine_valid : Line.Valid (libcInet .little) ⟨documentationLine, some (documentationHost, 64500)⟩ := by
  refine ⟨by decide +kernel, by decide +kernel, by decide +kernel, fun h => (by cases h), ?_⟩
  intro x hx
  cases hx
  refine ⟨⟨cstr "64500   ", 1, cstr "192.0.2.1", cstr "        | EXAMPLE-AS", ?_⟩, by decide +kernel⟩
  exact ⟨by decide +kernel, by decide, by decide, by decide +kernel, by norm_num, by norm_num,
    by decide, by decide +kernel, by decide +kernel, by decide +kernel, parse_documentationHost⟩

/-- The query and its answer, which comes in two parts. -/
theorem documentation_lookup : ∃ s log,
    Reach .little (libcInet .little) [documentationHost, .other 0 (by decide)] s log ∧ s.Left ∧
      (iptrieLeaves s.result).length = 1 ∧ log = [.answered documentationHost 64500] := by
  have hfill : fillRequestTrie .little [documentationHost, .other 0 (by decide)] ⟨.null, .null⟩ =
      some ⟨.node 0 24 documentationHost .null .null, .null⟩ := rfl
  have hstart : Reach .little (libcInet .little) [documentationHost, .other 0 (by decide)]
      ⟨[documentationHost], 0, [], ⟨.null, .null⟩, .loop, ⟨.null, .null⟩, [], [], []⟩ [] :=
    Reach.start hfill _
  have hasked := ((hstart.step (.miss rfl rfl (by decide))).step
    (.writable rfl rfl false (by simp))).step (.send (show _ = Phase.send
      (query (libcInet .little) documentationHost ++ []) false by rw [append_nil]))
  have hanswered := ((hasked.step (.sent rfl)).step (.accept (show _ =
    (libcInet .little).ntop documentationHost ++ newline :: [] from rfl) (by decide +kernel))).step
      (.answer (show _ = [] ++ (libcInet .little).ntop documentationHost :: [] from rfl)
        ((libcInet_lawful .little).parse_ntop _ (SockAddr.width_ne_zero (Or.inl rfl)))
        documentationLine_valid)
  have hanswers : documentationLine ++ [newline] = documentationLine.take 3 ++ (documentationLine.drop 3 ++ [newline]) := by
    rw [← append_assoc, take_append_drop]
  have hfirst := ((hanswered.step (.wait rfl rfl (by decide))).step
    (.readable rfl (by decide) (by simp))).step (.recv rfl hanswers (by decide +kernel)
      (by decide +kernel) (processBuffer_lines (by simp) (by decide +kernel) (by decide +kernel)
        (by simp) (show _ = stream [] ++ documentationLine.take 3 from rfl)))
  have hwhole : documentationLine.take 3 ++ (documentationLine.drop 3 ++ [newline]) =
      stream [⟨documentationLine, some (documentationHost, 64500)⟩] ++ [] := by
    rw [← hanswers]
    simp [stream, Line.bytes]
  have hsecond := ((hfirst.step (.wait rfl rfl (by decide))).step
    (.readable rfl (by decide) (by simp))).step (.recv rfl (append_nil _).symm (by simp)
      (by decide +kernel) (processBuffer_lines (by simpa using documentationLine_valid) (by simp)
        (by simp) (by decide +kernel) hwhole))
  exact ⟨_, _, hsecond, ⟨rfl, rfl, by decide⟩, rfl, rfl⟩

theorem uncached_address_looked_up : ∃ s log,
    Reach .little (libcInet .little) [documentationHost, .other 0 (by decide)] s log ∧ s.Left ∧
      Complete .little [documentationHost, .other 0 (by decide)] log s := by
  obtain ⟨s, log, hreach, hleft, -⟩ := documentation_lookup
  exact ⟨s, log, hreach, hleft, (asn_requests_complete (libcInet_lawful .little) hreach).1 hleft⟩

end Amplet.AsnWorker

import Acqua.Asio.ReadUntil
import Acqua.Library.Scanning

/-! `irc/client.hpp`. A connection is what the reads of its socket return, and a session the list
of what the client does: what it writes, and which functions of the derived class it calls. -/

namespace Acqua

namespace Asio

namespace Irc

/-- The members that `connect` sets. -/
structure Account where
  nick : List UInt8
  pass : List UInt8
  user : List UInt8
  real : List UInt8

inductive Action where
  | write (text : List UInt8)
  | onWelcome
  | onJoin (targ : List UInt8)
  | onPrivmsg (targ msg : List UInt8)
  deriving DecidableEq

/-- What `operator<<` writes of a `char const *`. -/
def cstr (s : List UInt8) : List UInt8 := s.takeWhile (· ≠ 0)

def sendMsg (arg1 arg2 : List UInt8) : List UInt8 := arg1 ++ chr ' ' :: (arg2 ++ crlf)

def sendMsg3 (arg1 arg2 arg3 : List UInt8) : List UInt8 :=
  arg1 ++ chr ' ' :: (arg2 ++ chr ' ' :: chr ':' :: (arg3 ++ crlf))

def join (channel : List UInt8) : List UInt8 := sendMsg (octets "JOIN") channel

def say (channel msg : List UInt8) : List UInt8 := sendMsg3 (octets "PRIVMSG") channel msg

/-- What `on_connect` writes. -/
def registration (a : Account) : List UInt8 :=
  (if a.pass = [] then [] else octets "PASS " ++ a.pass ++ crlf) ++
    (octets "USER " ++ a.user ++ octets " * 0 " ++ a.real ++ crlf ++
      octets "NICK " ++ a.nick ++ crlf)

/-- `qi::symbols`; none of the four begins with another one. -/
def symbols : List (List UInt8 × Nat) :=
  [(octets "001", 1), (octets "353", 353), (octets "JOIN", 1000), (octets "PRIVMSG", 1001)]

/-- `sym >> ' '`. -/
def parseCode (it : List UInt8) : Option (Nat × List UInt8) := do
  let (text, code) ← symbols.find? fun entry => entry.1.isPrefixOf it
  let it ← literal " " (it.drop text.length)
  return (code, it)

/-- `*(qi::char_ - qi::space)`. -/
def word (it : List UInt8) : List UInt8 × List UInt8 :=
  (it.takeWhile fun ch => !isspace ch, it.dropWhile fun ch => !isspace ch)

/-- The rule of code 353: the name, and then the channel after its kind. -/
def parseNames (it : List UInt8) : Option (List UInt8) := do
  let it ← literal " " (word it).2
  let it ← (literal "=" it).orElse fun _ => (literal "*" it).orElse fun _ => literal "@" it
  let it ← literal " " it
  return (word it).1

def parseJoin (it : List UInt8) : Option (List UInt8) := do
  let it ← literal ":" it
  return (word it).1

def parsePrivmsg (it : List UInt8) : Option (List UInt8 × List UInt8) := do
  let it' ← literal " " (word it).2
  let msg ← literal ":" it'
  return ((word it).1, msg)

/-- What `dispatch` does with a code and what stands after it. -/
def call (code : Nat) (it : List UInt8) : List Action :=
  match code with
  | 1 => [Action.onWelcome]
  | 353 => ((parseNames it).map Action.onJoin).toList
  | 1000 => ((parseJoin it).map Action.onJoin).toList
  | 1001 => ((parsePrivmsg it).map fun (targ, msg) => Action.onPrivmsg targ msg).toList
  | _ => []

/-- What stands after the first blank of the line. -/
def afterBlank (line : List UInt8) : List UInt8 := (line.dropWhile (· ≠ chr ' ')).drop 1

def isPing (line : List UInt8) : Bool := istartsWith (cstr line) (octets "PING")

/-- `send_msg("PONG", it)`. -/
def pong (line : List UInt8) : List UInt8 := sendMsg (octets "PONG") (cstr (afterBlank line))

/-- `dispatch` on a line, of which the last two octets are off. -/
def dispatch (line : List UInt8) : List Action :=
  if isPing line then [Action.write (pong line)]
  else
    match parseCode (afterBlank line) with
    | some (code, it) => call code it
    | none => []

/-- Rounds of `async_read_until` and `dispatch`. A round takes two octets off or more. -/
def serve : Nat → List UInt8 → List (List UInt8) → List Action
  | 0, _, _ => []
  | fuel + 1, recvbuf, reads =>
    match readUntil recvbuf reads with
    | none => []
    | some (size, data, reads) =>
      dispatch (data.take (size - 2)) ++ serve fuel (data.drop size) reads

/-- `on_connect` and all that follows from it. -/
def session (a : Account) (reads : List (List UInt8)) : List Action :=
  Action.write (registration a) :: serve reads.flatten.length [] reads

/-- The lines of a text that have come to their end. -/
def crlfLines : List UInt8 → List (List UInt8)
  | a :: b :: s =>
    if [a, b] = crlf then [] :: crlfLines s
    else
      match crlfLines (b :: s) with
      | [] => []
      | line :: lines => (a :: line) :: lines
  | _ => []

theorem crlfLines_of_none {s : List UInt8} (h : findCrlf s = none) : crlfLines s = [] := by
  induction s with
  | nil => rfl
  | cons a s ih =>
    cases s with
    | nil => rfl
    | cons b s =>
      rw [findCrlf_cons_cons] at h
      split at h
      · cases h
      · rw [crlfLines, if_neg ‹_›, ih (Option.map_eq_none_iff.mp h)]

theorem crlfLines_of_some {s : List UInt8} {n : Nat} (h : findCrlf s = some n) :
    crlfLines s = s.take (n - 2) :: crlfLines (s.drop n) := by
  induction s generalizing n with
  | nil => cases h
  | cons a s ih =>
    cases s with
    | nil => exact absurd (h.symm.trans (findCrlf_singleton a)) (Option.some_ne_none n)
    | cons b s =>
      rw [findCrlf_cons_cons] at h
      split at h
      · cases h
        rw [crlfLines, if_pos ‹_›]
        rfl
      · obtain ⟨m, hm, rfl⟩ := Option.map_eq_some_iff.mp h
        have hle := (findCrlf_le hm).2
        rw [crlfLines, if_neg ‹_›, ih hm]
        simp [show m + 1 - 2 = (m - 2) + 1 by omega]

/-- A text that the reads complete gives the same line as all that comes in. -/
theorem serve_eq (fuel : Nat) (recvbuf : List UInt8) (reads : List (List UInt8))
    (hfuel : (recvbuf ++ reads.flatten).length ≤ fuel) :
    serve fuel recvbuf reads = (crlfLines (recvbuf ++ reads.flatten)).flatMap dispatch := by
  induction fuel generalizing recvbuf reads with
  | zero =>
    have hnil := List.eq_nil_of_length_eq_zero (Nat.le_zero.mp hfuel)
    rw [hnil]
    rfl
  | succ fuel ih =>
    rcases hfind : findCrlf (recvbuf ++ reads.flatten) with _ | n
    · rw [crlfLines_of_none hfind, serve, readUntil_bytes_none hfind]
      rfl
    · obtain ⟨data, reads', hread, hle, hbytes⟩ := readUntil_bytes hfind
      have hdrop : data.drop n ++ reads'.flatten = (recvbuf ++ reads.flatten).drop n := by
        rw [← hbytes, List.drop_append_of_le_length hle]
      have htake : data.take (n - 2) = (recvbuf ++ reads.flatten).take (n - 2) := by
        rw [← hbytes, List.take_append_of_le_length (by omega)]
      have hn := (findCrlf_le hfind).2
      have hrest : (data.drop n ++ reads'.flatten).length ≤ fuel := by
        rw [hdrop, List.length_drop]
        omega
      rw [serve, hread, crlfLines_of_some hfind, List.flatMap_cons]
      simp only [ih _ _ hrest, hdrop, htake]

theorem session_eq (a : Account) (reads : List (List UInt8)) :
    session a reads =
      Action.write (registration a) :: (crlfLines reads.flatten).flatMap dispatch := by
  rw [session, serve_eq _ _ _ (by simp), List.nil_append]

theorem crlfLines_append (s t : List UInt8) : crlfLines s <+: crlfLines (s ++ t) := by
  induction hlen : s.length using Nat.strong_induction_on generalizing s with
  | _ len ih =>
    rcases hfind : findCrlf s with _ | n
    · rw [crlfLines_of_none hfind]
      exact List.nil_prefix
    · have hn := findCrlf_le hfind
      rw [crlfLines_of_some hfind, crlfLines_of_some (findCrlf_append hfind t),
        List.take_append_of_le_length (by omega), List.drop_append_of_le_length hn.1]
      exact (List.prefix_cons_inj _).mpr (ih _ (by rw [List.length_drop]; omega) _ rfl)

/-- The client does the same however the network cuts what the server sends, and what arrives
later only adds to it. -/
theorem session_actions (a : Account) (reads more : List (List UInt8)) :
    session a reads =
        Action.write (registration a) :: (crlfLines reads.flatten).flatMap dispatch ∧
      session a reads <+: session a (reads ++ more) := by
  refine ⟨session_eq a reads, ?_⟩
  obtain ⟨lines, hlines⟩ := crlfLines_append reads.flatten more.flatten
  rw [session_eq, session_eq, List.flatten_append, ← hlines, List.flatMap_append]
  exact (List.prefix_cons_inj _).mpr (List.prefix_append _ _)

theorem findCrlf_of_mem {s line : List UInt8} (h : line ∈ crlfLines s) : findCrlf line = none := by
  induction hlen : s.length using Nat.strong_induction_on generalizing s with
  | _ len ih =>
    rcases hfind : findCrlf s with _ | n
    · rw [crlfLines_of_none hfind] at h
      cases h
    · rw [crlfLines_of_some hfind] at h
      rcases List.mem_cons.mp h with rfl | h
      · exact findCrlf_take hfind
      · have hn := findCrlf_le hfind
        exact ih _ (by rw [List.length_drop]; omega) h rfl

theorem crlfLines_line {line : List UInt8} (h : findCrlf line = none) (tail : List UInt8) :
    crlfLines (line ++ (crlf ++ tail)) = line :: crlfLines tail := by
  have hend : findCrlf (line ++ (crlf ++ tail)) = some (line.length + 2) := by
    rw [show crlf ++ tail = chr '\r' :: chr '\n' :: tail from rfl,
      findCrlf_append_of_none h (by decide), Nat.add_comm]
    rfl
  rw [crlfLines_of_some hend, Nat.add_sub_cancel, List.take_left, ← List.append_assoc]
  congr 2
  exact List.drop_left' (by simp [crlf, octets])

/-- What an action writes to the server. -/
def Action.written : Action → Option (List UInt8)
  | .write text => some text
  | _ => none

theorem call_written (code : Nat) (it : List UInt8) :
    (call code it).filterMap Action.written = [] := by
  unfold call
  split
  · rfl
  · cases parseNames it <;> rfl
  · cases parseJoin it <;> rfl
  · cases parsePrivmsg it <;> rfl
  · rfl

theorem dispatch_written (line : List UInt8) :
    (dispatch line).filterMap Action.written = if isPing line then [pong line] else [] := by
  rw [dispatch]
  split
  · rfl
  · cases parseCode (afterBlank line) with
    | none => rfl
    | some r => exact call_written r.1 r.2

theorem dispatch_all_written (lines : List (List UInt8)) :
    (lines.flatMap dispatch).filterMap Action.written = (lines.filter isPing).map pong := by
  induction lines with
  | nil => rfl
  | cons line lines ih =>
    rw [List.flatMap_cons, List.filterMap_append, dispatch_written, ih]
    by_cases hping : isPing line
    · rw [if_pos hping, List.filter_cons_of_pos hping]
      rfl
    · rw [if_neg hping, List.filter_cons_of_neg hping, List.nil_append]

theorem findCrlf_token {line : List UInt8} (h : findCrlf line = none) :
    findCrlf (cstr (afterBlank line)) = none := by
  have hdrop : findCrlf (line.dropWhile (· ≠ chr ' ')) = none := by
    rw [← List.takeWhile_append_dropWhile (p := (· ≠ chr ' ')) (l := line)] at h
    exact findCrlf_right_none h
  have hafter : findCrlf (afterBlank line) = none := by
    rw [← List.take_append_drop 1 (line.dropWhile _)] at hdrop
    exact findCrlf_right_none hdrop
  rw [← List.takeWhile_append_dropWhile (p := (· ≠ 0)) (l := afterBlank line)] at hafter
  exact findCrlf_left_none hafter

/-- A reply is one line whatever the server asks. -/
theorem crlfLines_pong {line : List UInt8} (h : findCrlf line = none) :
    crlfLines (pong line) = [octets "PONG " ++ cstr (afterBlank line)] := by
  have hnone : findCrlf (octets "PONG " ++ cstr (afterBlank line)) = none := by
    rw [show octets "PONG " ++ cstr (afterBlank line) =
        octets "PONG" ++ chr ' ' :: cstr (afterBlank line) from rfl,
      findCrlf_append_of_none (by decide) (by decide), findCrlf_cons (by decide),
      findCrlf_token h]
    rfl
  have hline := crlfLines_line hnone []
  rw [List.append_nil, List.append_assoc] at hline
  exact hline

/-- Behind its registration a client writes a line for every PING, in their order, and nothing
that is not such a line. -/
theorem session_writes (a : Account) (reads : List (List UInt8)) :
    (session a reads).filterMap Action.written =
        registration a :: ((crlfLines reads.flatten).filter isPing).map pong ∧
      ∀ line ∈ crlfLines reads.flatten,
        crlfLines (pong line) = [octets "PONG " ++ cstr (afterBlank line)] := by
  constructor
  · rw [session_eq, List.filterMap_cons, dispatch_all_written]
    rfl
  · intro line hline
    exact crlfLines_pong (findCrlf_of_mem hline)

/-- What another client says, with the source that the server sets in front of it. -/
structure Relay where
  source : List UInt8
  channel : List UInt8
  msg : List UInt8
  source_colon : source.head? = some (chr ':')
  source_word : ∀ ch ∈ source, isspace ch = false

namespace Relay

def text (r : Relay) : List UInt8 := r.source ++ chr ' ' :: say r.channel r.msg

def action (r : Relay) : Action := Action.onPrivmsg r.channel r.msg

/-- The channel is a word and the message a line. -/
def Sayable (r : Relay) : Prop :=
  (∀ ch ∈ r.channel, isspace ch = false) ∧ findCrlf r.msg = none

def line (r : Relay) : List UInt8 :=
  r.source ++ chr ' ' :: (octets "PRIVMSG " ++ (r.channel ++ chr ' ' :: chr ':' :: r.msg))

theorem text_eq (r : Relay) : r.text = r.line ++ crlf := by
  simp [text, line, say, sendMsg3, octets]

end Relay

theorem findCrlf_word {s : List UInt8} (h : ∀ ch ∈ s, isspace ch = false) (t : List UInt8) :
    findCrlf (s ++ t) = (findCrlf t).map (· + s.length) :=
  findCrlf_run (fun hmem => absurd (h _ hmem) (by decide)) t

theorem word_append {s : List UInt8} (h : ∀ ch ∈ s, isspace ch = false) (t : List UInt8) :
    word (s ++ chr ' ' :: t) = (s, chr ' ' :: t) := by
  have hall : ∀ ch ∈ s, (!isspace ch) = true := fun ch hch => by rw [h ch hch]; rfl
  rw [word, takeWhile_run hall (by decide), dropWhile_run hall (by decide)]

theorem parsePrivmsg_said {channel : List UInt8} (h : ∀ ch ∈ channel, isspace ch = false)
    (msg : List UInt8) :
    parsePrivmsg (channel ++ chr ' ' :: chr ':' :: msg) = some (channel, msg) := by
  rw [parsePrivmsg, word_append h]
  rfl

theorem parseCode_suffix {it rest : List UInt8} {code : Nat} (h : parseCode it = some (code, rest)) :
    rest <:+ it := by
  obtain ⟨entry, -, h⟩ := Option.bind_eq_some_iff.mp h
  obtain ⟨it', hlit, h⟩ := Option.bind_eq_some_iff.mp h
  cases h
  exact (literal_suffix hlit).trans (List.drop_suffix _ _)

theorem parsePrivmsg_eq_some {it targ msg : List UInt8} (h : parsePrivmsg it = some (targ, msg)) :
    (∀ ch ∈ targ, isspace ch = false) ∧ msg <:+ it := by
  obtain ⟨it', hblank, h⟩ := Option.bind_eq_some_iff.mp h
  obtain ⟨msg', hcolon, h⟩ := Option.bind_eq_some_iff.mp h
  cases h
  refine ⟨fun ch hch => by simpa using List.mem_takeWhile_imp hch, ?_⟩
  exact ((literal_suffix hcolon).trans (literal_suffix hblank)).trans (List.dropWhile_suffix _)

theorem onPrivmsg_mem_call {code : Nat} {it targ msg : List UInt8}
    (h : Action.onPrivmsg targ msg ∈ call code it) : parsePrivmsg it = some (targ, msg) := by
  unfold call at h
  split at h
  · simp at h
  · simp at h
  · simp at h
  · simpa using h
  · cases h

/-- A message that is delivered is the end of a line, and its channel is a word. -/
theorem onPrivmsg_mem_dispatch {line targ msg : List UInt8}
    (h : Action.onPrivmsg targ msg ∈ dispatch line) :
    (∀ ch ∈ targ, isspace ch = false) ∧ msg <:+ line := by
  rw [dispatch] at h
  split at h
  · simp at h
  · split at h
    · rename_i code it hcode
      obtain ⟨htarg, hmsg⟩ := parsePrivmsg_eq_some (onPrivmsg_mem_call h)
      exact ⟨htarg, (hmsg.trans (parseCode_suffix hcode)).trans
        ((List.drop_suffix _ _).trans (List.dropWhile_suffix _))⟩
    · cases h

/-- What a session delivers could have been said. -/
theorem sayable_of_mem {r : Relay} {bytes : List UInt8}
    (h : r.action ∈ (crlfLines bytes).flatMap dispatch) : r.Sayable := by
  obtain ⟨line, hline, hmem⟩ := List.mem_flatMap.mp h
  obtain ⟨hchannel, pre, hpre⟩ := onPrivmsg_mem_dispatch hmem
  have hnone := findCrlf_of_mem hline
  rw [← hpre] at hnone
  exact ⟨hchannel, findCrlf_right_none hnone⟩

namespace Relay

theorem not_isPing_line (r : Relay) : isPing r.line = false := by
  obtain ⟨source, hsource⟩ : ∃ source, r.source = chr ':' :: source := by
    have hcolon := r.source_colon
    cases hs : r.source with
    | nil => rw [hs] at hcolon; cases hcolon
    | cons a source =>
      rw [hs] at hcolon
      exact ⟨source, by rw [Option.some.inj hcolon]⟩
  rw [isPing, line, hsource]
  rfl

theorem afterBlank_line (r : Relay) :
    afterBlank r.line = octets "PRIVMSG " ++ (r.channel ++ chr ' ' :: chr ':' :: r.msg) := by
  have hword : ∀ ch ∈ r.source, decide (ch ≠ chr ' ') = true := by
    intro ch hch
    rw [decide_eq_true_eq]
    rintro rfl
    exact absurd (r.source_word _ hch) (by decide)
  rw [afterBlank, line, dropWhile_run hword (by decide)]
  rfl

theorem dispatch_line {r : Relay} (h : r.Sayable) : dispatch r.line = [r.action] := by
  have hcode : parseCode (afterBlank r.line) =
      some (1001, r.channel ++ chr ' ' :: chr ':' :: r.msg) := by
    rw [afterBlank_line]
    rfl
  rw [dispatch, not_isPing_line, hcode]
  simp only [Bool.false_eq_true, if_false, call, parsePrivmsg_said h.1]
  rfl

theorem findCrlf_line {r : Relay} (h : r.Sayable) : findCrlf r.line = none := by
  have hmsg : findCrlf (chr ' ' :: chr ':' :: r.msg) = none := by
    rw [findCrlf_cons (by decide), findCrlf_cons (by decide), h.2]
    rfl
  have hrest : findCrlf (r.channel ++ chr ' ' :: chr ':' :: r.msg) = none := by
    rw [findCrlf_word h.1, hmsg]
    rfl
  have hverb : findCrlf (octets "PRIVMSG " ++ (r.channel ++ chr ' ' :: chr ':' :: r.msg)) = none := by
    rw [show octets "PRIVMSG " = octets "PRIVMSG" ++ [chr ' '] from rfl, List.append_assoc,
      List.singleton_append, findCrlf_append_of_none (by decide) (by decide),
      findCrlf_cons (by decide), hrest]
    rfl
  rw [line, findCrlf_word r.source_word, findCrlf_cons (by decide), hverb]
  rfl

theorem session_texts {rs : List Relay} (h : ∀ r ∈ rs, r.Sayable) :
    (crlfLines (rs.flatMap text)).flatMap dispatch = rs.map action := by
  induction rs with
  | nil => rfl
  | cons r rs ih =>
    have hr := h r List.mem_cons_self
    rw [List.flatMap_cons, text_eq, List.append_assoc, crlfLines_line (findCrlf_line hr),
      List.flatMap_cons, dispatch_line hr, ih fun r' hr' => h r' (List.mem_cons_of_mem _ hr'),
      List.map_cons, List.singleton_append]

end Relay

/-- Messages reach another client as they were said, and in their order, exactly where every
channel is a word and no message has a line end in it. -/
theorem relayed_says_iff (a : Account) (rs : List Relay) (reads : List (List UInt8))
    (h : reads.flatten = rs.flatMap Relay.text) :
    session a reads = Action.write (registration a) :: rs.map Relay.action ↔
      ∀ r ∈ rs, r.Sayable := by
  rw [session_eq, h, List.cons.injEq, and_iff_right rfl]
  constructor
  · intro hall r hr
    have hmem : r.action ∈ rs.map Relay.action := List.mem_map_of_mem hr
    rw [← hall] at hmem
    exact sayable_of_mem hmem
  · exact Relay.session_texts

theorem word_of_all {s : List UInt8} (h : s.all (fun ch => !isspace ch) = true) :
    ∀ ch ∈ s, isspace ch = false :=
  fun ch hch => Bool.not_eq_true' _ ▸ List.all_eq_true.mp h ch hch

def greeting : Relay :=
  ⟨octets ":n!u@h", octets "#c", octets "hi", by decide, word_of_all (by decide)⟩

def guest : Account := ⟨octets "g", octets "p", octets "guest", octets "Guest"⟩

theorem relayed_greeting :
    session guest [octets ":n!u@h PRIVMSG #c :h", octets "i\r\n"] =
      [Action.write (registration guest), Action.onPrivmsg (octets "#c") (octets "hi")] :=
  (relayed_says_iff guest [greeting] _ (by decide)).mpr
    (List.forall_mem_singleton.mpr ⟨word_of_all (by decide), by decide⟩)

end Irc

end Asio

end Acqua

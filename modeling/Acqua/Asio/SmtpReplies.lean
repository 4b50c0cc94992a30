import Acqua.Asio.SmtpClient

/-! Replies of an SMTP server, the client that gets one reply for each thing it sends, and when
the client that reads octets is that client. -/

namespace Acqua

namespace Asio

namespace Smtp

def codeDigits (code : Nat) : List UInt8 :=
  [UInt8.ofNat (code / 100 + 48), UInt8.ofNat (code / 10 % 10 + 48), UInt8.ofNat (code % 10 + 48)]

/-- A line without its end. -/
def replyLine (code : Nat) (sep : Char) (text : List UInt8) : List UInt8 :=
  codeDigits code ++ chr sep :: text

/-- `init` has the texts of the lines that say that another one follows. -/
structure Reply where
  code : Nat
  init : List (List UInt8)
  last : List UInt8
  code_lt : code < 1000
  plain : ∀ text ∈ last :: init, chr '\r' ∉ text

namespace Reply

def bytes (r : Reply) : List UInt8 :=
  (r.init.map fun text => replyLine r.code '-' text ++ crlf).flatten ++
    (replyLine r.code ' ' r.last ++ crlf)

/-- What a receive function is to make of a reply. -/
def received (how : Receive) (r : Reply) : Received :=
  let texts :=
    match how with
    | .code => []
    | .message => if r.code ≥ 400 then [] else [r.last]
    | .ehlo => if r.code ≠ 0 then r.init ++ [r.last] else []
  ⟨r.code, texts, r.code ≥ 400, false⟩

@[simp]
theorem received_code (how : Receive) (r : Reply) : (r.received how).code = r.code := rfl

@[simp]
theorem received_thrown (how : Receive) (r : Reply) : (r.received how).thrown = false := rfl

/-- No exception is thrown for the reply, and all of its lines are read. -/
def Fits (throws : Bool) (how : Receive) (r : Reply) : Prop :=
  (throws = true → r.code < 400) ∧ (r.init = [] ∨ how = .ehlo ∧ r.code ≠ 0)

instance (throws : Bool) (how : Receive) (r : Reply) : Decidable (r.Fits throws how) :=
  inferInstanceAs (Decidable (_ ∧ _))

end Reply

/-- What was sent with the code of its reply, and how it ended, with the replies that are left. -/
structure Answered where
  log : List (List UInt8 × Nat)
  ended : Option (Result × Flags × List Reply)

/-- Each thing sent gets the next reply. -/
def Prog.answered : Prog → List Reply → Answered
  | .done r f, replies => ⟨[], some (r, f, replies)⟩
  | .connect next, replies => next.answered replies
  | .exchange _ _ _ _, [] => ⟨[], none⟩
  | .exchange send _ how next, reply :: replies =>
    let o := (next (reply.received how)).answered replies
    { o with log := (send, reply.code) :: o.log }
  | .handshake _ next, replies => (next true).answered replies

/-- The condition on each step: the channel is readable and the reply fits, and a handshake that
is asked for succeeds. -/
def Prog.Meets (throws tls : Bool) : Prog → List Reply → Prop
  | .done _ _, _ => True
  | .connect next, replies => next.Meets throws tls replies
  | .exchange _ readable _ _, [] => readable = true
  | .exchange _ readable how next, reply :: replies =>
    (readable = true ∧ reply.Fits throws how) ∧
      (next (reply.received how)).Meets throws tls replies
  | .handshake _ next, replies => tls = true ∧ (next true).Meets throws tls replies

/-- The operations in turn, each with what is left after the one before it. -/
def sessionAnswered (cfg : Config) (throws : Bool) : List Op → Flags → List Reply → List Answered
  | [], _, _ => []
  | op :: ops, f, replies =>
    let o := (op.prog cfg throws f).answered replies
    match o.ended with
    | none => [o]
    | some (_, f, replies) => o :: sessionAnswered cfg throws ops f replies

def SessionMeets (cfg : Config) (throws tls : Bool) : List Op → Flags → List Reply → Prop
  | [], _, _ => True
  | op :: ops, f, replies =>
    (op.prog cfg throws f).Meets throws tls replies ∧
      match ((op.prog cfg throws f).answered replies).ended with
      | none => True
      | some (_, f, replies) => SessionMeets cfg throws tls ops f replies

instance Prog.decidableMeets (throws tls : Bool) :
    (p : Prog) → (replies : List Reply) → Decidable (p.Meets throws tls replies)
  | .done _ _, _ => isTrue trivial
  | .connect next, replies => Prog.decidableMeets throws tls next replies
  | .exchange _ readable _ _, [] => inferInstanceAs (Decidable (readable = true))
  | .exchange _ readable how next, reply :: replies =>
    have := Prog.decidableMeets throws tls (next (reply.received how)) replies
    inferInstanceAs (Decidable ((readable = true ∧ reply.Fits throws how) ∧ _))
  | .handshake _ next, replies =>
    have := Prog.decidableMeets throws tls (next true) replies
    inferInstanceAs (Decidable (tls = true ∧ _))

instance SessionMeets.decidable (cfg : Config) (throws tls : Bool) :
    (ops : List Op) → (f : Flags) → (replies : List Reply) →
      Decidable (SessionMeets cfg throws tls ops f replies)
  | [], _, _ => isTrue trivial
  | op :: ops, f, replies =>
    match h : ((op.prog cfg throws f).answered replies).ended with
    | none => decidable_of_iff ((op.prog cfg throws f).Meets throws tls replies)
        (by simp [SessionMeets, h])
    | some (_, g, left) =>
      have := SessionMeets.decidable cfg throws tls ops g left
      decidable_of_iff ((op.prog cfg throws f).Meets throws tls replies ∧
        SessionMeets cfg throws tls ops g left) (by simp [SessionMeets, h])

/-- Nothing is left over from earlier replies, and the server answers with `replies`. -/
def Wire.Synced (w : Wire) (replies : List Reply) : Prop :=
  w.recvbuf ++ w.inbound.flatten = [] ∧ w.server.map List.flatten = replies.map Reply.bytes

section Lines

variable {throws : Bool}

theorem le_length_flatten {α : Type} (lines : List (List α)) (h : ∀ line ∈ lines, line ≠ []) :
    lines.length ≤ lines.flatten.length := by
  induction lines with
  | nil => exact Nat.zero_le _
  | cons line lines ih =>
    have hline := List.length_pos_iff.mpr (h line (by simp))
    have hrest := ih fun l hl => h l (List.mem_cons_of_mem _ hl)
    simp only [List.flatten_cons, List.length_append, List.length_cons]
    omega

theorem digit_octet {d : Nat} (h : d < 10) :
    isdigit (UInt8.ofNat (d + 48)) = true ∧ (UInt8.ofNat (d + 48)).toNat - 48 = d ∧
      UInt8.ofNat (d + 48) ≠ chr '\r' := by
  interval_cases d <;> decide

theorem parseResponseCode_line {code : Nat} (hcode : code < 1000) (sep : Char)
    (text rest : List UInt8) {size : Nat} (hsize : size ≥ 6) :
    parseResponseCode (replyLine code sep text ++ crlf ++ rest) size =
      (code, decide (code ≥ 400)) := by
  obtain ⟨ha, hna, -⟩ := digit_octet (show code / 100 < 10 by omega)
  obtain ⟨hb, hnb, -⟩ := digit_octet (show code / 10 % 10 < 10 by omega)
  obtain ⟨hc, hnc, -⟩ := digit_octet (show code % 10 < 10 by omega)
  have hsum : (code / 100 * 10 + code / 10 % 10) * 10 + code % 10 = code := by omega
  have hif := And.intro hsize (And.intro ha (And.intro hb hc))
  simp only [parseResponseCode, replyLine, codeDigits, List.cons_append, List.nil_append]
  rw [if_pos hif, hna, hnb, hnc, hsum]

theorem replyLine_plain {code : Nat} (hcode : code < 1000) {sep : Char} (hsep : chr sep ≠ chr '\r')
    {text : List UInt8} (htext : chr '\r' ∉ text) : chr '\r' ∉ replyLine code sep text := by
  obtain ⟨-, -, ha⟩ := digit_octet (show code / 100 < 10 by omega)
  obtain ⟨-, -, hb⟩ := digit_octet (show code / 10 % 10 < 10 by omega)
  obtain ⟨-, -, hc⟩ := digit_octet (show code % 10 < 10 by omega)
  simp only [replyLine, codeDigits, List.cons_append, List.nil_append, List.mem_cons, not_or]
  exact ⟨ha.symm, hb.symm, hc.symm, hsep.symm, htext⟩

theorem textOf_line (code : Nat) (sep : Char) (text rest : List UInt8) :
    textOf (replyLine code sep text ++ crlf ++ rest) ((replyLine code sep text).length + 2) =
      text := by
  have hsize : (replyLine code sep text).length + 2 - 6 = text.length := by
    simp [replyLine, codeDigits]
  rw [textOf, hsize]
  simp [replyLine, codeDigits]

theorem receiveLine_line {code : Nat} (hcode : code < 1000) (hthrows : throws = true → code < 400)
    {sep : Char} (hsep : chr sep ≠ chr '\r') {text : List UInt8} (htext : chr '\r' ∉ text)
    {w : Wire} {tail : List UInt8}
    (h : w.recvbuf ++ w.inbound.flatten = replyLine code sep text ++ crlf ++ tail) :
    ∃ buffer inbound, receiveLine throws w = some (code, decide (code ≥ 400),
        replyLine code sep text ++ crlf ++ buffer, text,
        { w with recvbuf := buffer, inbound := inbound }) ∧
      buffer ++ inbound.flatten = tail := by
  obtain ⟨buffer, inbound, hread, htail⟩ := readUntil_line (replyLine_plain hcode hsep htext) h
  have hthrow : (throws && decide (code ≥ 400)) = false := by
    cases throws with
    | false => rfl
    | true => simpa using hthrows rfl
  have hsize : (replyLine code sep text).length + 2 ≥ 6 := by simp [replyLine, codeDigits]
  have hlen : (replyLine code sep text).length + 2 = (replyLine code sep text ++ crlf).length := by
    rw [List.length_append]
    rfl
  refine ⟨buffer, inbound, ?_, htail⟩
  simp only [receiveLine, hread, parseResponseCode_line hcode sep text buffer hsize, textOf_line, hthrow,
    Bool.false_eq_true, if_false]
  rw [hlen, List.drop_left]

/-- By induction on the texts before the last one, of which each goes round the loop. -/
theorem receiveEhloLoop_lines {code : Nat} (hcode : code < 1000)
    (hthrows : throws = true → code < 400) {last : List UInt8} (hlast : chr '\r' ∉ last)
    {init : List (List UInt8)} (hinit : ∀ text ∈ init, chr '\r' ∉ text)
    (hmore : init = [] ∨ code ≠ 0) {fuel : Nat} (hfuel : init.length < fuel)
    (texts : List (List UInt8)) {w : Wire} {tail : List UInt8}
    (h : w.recvbuf ++ w.inbound.flatten =
      (init.map fun text => replyLine code '-' text ++ crlf).flatten ++
        (replyLine code ' ' last ++ crlf ++ tail)) :
    ∃ buffer inbound, receiveEhloLoop throws fuel texts w =
        some (⟨code, if code ≠ 0 then texts ++ init ++ [last] else texts, decide (code ≥ 400),
          false⟩, { w with recvbuf := buffer, inbound := inbound }) ∧
      buffer ++ inbound.flatten = tail := by
  have hthrow : (throws && decide (code ≥ 400)) = false := by
    cases throws with
    | false => rfl
    | true => simpa using hthrows rfl
  obtain ⟨fuel, rfl⟩ : ∃ n, fuel = n + 1 := ⟨fuel - 1, by omega⟩
  induction init generalizing fuel texts w with
  | nil =>
    obtain ⟨buffer, inbound, hline, htail⟩ := receiveLine_line hcode hthrows (by decide) hlast h
    refine ⟨buffer, inbound, ?_, htail⟩
    have hdash : ¬ (code > 0 ∧ (replyLine code ' ' last ++ crlf ++ buffer)[3]? =
        some (chr '-')) := fun hd => absurd hd.2 (by simp [replyLine, codeDigits]; decide)
    simp only [receiveEhloLoop, hline, hthrow, if_neg hdash]
    simp
  | cons text init ih =>
    have hne : code ≠ 0 := hmore.resolve_left (by simp)
    rw [List.map_cons, List.flatten_cons, List.append_assoc] at h
    obtain ⟨buffer, inbound, hline, htail⟩ :=
      receiveLine_line hcode hthrows (by decide) (hinit text (by simp)) h
    have hdash : code > 0 ∧ (replyLine code '-' text ++ crlf ++ buffer)[3]? =
        some (chr '-') := ⟨Nat.pos_of_ne_zero hne, by simp [replyLine, codeDigits]⟩
    obtain ⟨fuel, rfl⟩ : ∃ n, fuel = n + 1 := ⟨fuel - 1, by simp at hfuel; omega⟩
    obtain ⟨buffer', inbound', hloop, htail'⟩ := ih
      (fun text ht => hinit text (List.mem_cons_of_mem _ ht)) (.inr hne) (texts ++ [text])
      (w := { w with recvbuf := buffer, inbound := inbound }) htail fuel (by simpa using hfuel)
    refine ⟨buffer', inbound', ?_, htail'⟩
    rw [receiveEhloLoop, hline]
    simp only [hthrow, if_pos hne, if_pos hdash, hloop]
    simp

theorem receive_reply {how : Receive} {reply : Reply} (hfits : reply.Fits throws how) {w : Wire}
    (h : w.recvbuf ++ w.inbound.flatten = reply.bytes) :
    ∃ buffer inbound, receive throws how w =
        some (reply.received how, { w with recvbuf := buffer, inbound := inbound }) ∧
      buffer ++ inbound.flatten = [] := by
  obtain ⟨code, init, last, hcode, hplain⟩ := reply
  obtain ⟨hthrows, hlines⟩ := hfits
  have hlast : chr '\r' ∉ last := hplain last (by simp)
  have hinit : ∀ text ∈ init, chr '\r' ∉ text := fun text ht =>
    hplain text (List.mem_cons_of_mem _ ht)
  have hthrow : (throws && decide (code ≥ 400)) = false := by
    cases throws with
    | false => rfl
    | true => simpa using hthrows rfl
  rw [← List.append_nil (Reply.bytes _), Reply.bytes, List.append_assoc] at h
  dsimp only at h hthrows hlines
  by_cases hehlo : how = .ehlo
  · subst how
    have hmore : init = [] ∨ code ≠ 0 := hlines.imp_right And.right
    have hfuel : init.length < w.recvbuf.length + w.inbound.flatten.length + 1 := by
      have hlen := congrArg List.length h
      have hle := le_length_flatten (init.map fun text => replyLine code '-' text ++ crlf)
        (by simp [replyLine])
      simp only [List.length_append, List.length_map] at hlen hle
      omega
    exact receiveEhloLoop_lines hcode hthrows hlast hinit hmore hfuel [] h
  · obtain rfl : init = [] := hlines.resolve_right fun hc => hehlo hc.1
    obtain ⟨buffer, inbound, hline, htail⟩ :=
      receiveLine_line hcode hthrows (by decide) hlast h
    refine ⟨buffer, inbound, ?_, htail⟩
    cases how with
    | code => simp only [receive, receiveCode, hline, Option.map_some, hthrow, Reply.received]
    | message =>
      simp only [receive, receiveMessage, hline, Option.map_some, hthrow, Reply.received,
        decide_eq_true_eq]
    | ehlo => exact absurd rfl hehlo

end Lines

/-- How a client that reads octets has ended when the one that gets replies ends in `ended`. -/
def EndsAs (tls : Bool) (ended : Option (Result × Flags × List Reply))
    (o : Option (Result × Flags × Wire)) : Prop :=
  match ended with
  | none => o = none
  | some (res, f, replies) => ∃ w, o = some (res, f, w) ∧ w.Synced replies ∧ w.tls = tls

/-- One exchange: the next reply is what is received, or there is none and it waits. -/
theorem exchange_synced {throws : Bool} {how : Receive} {w : Wire} {reply : Reply}
    {replies : List Reply} (hfits : reply.Fits throws how) (h : w.Synced (reply :: replies)) :
    ∃ w', exchange throws true how w = some (reply.received how, w') ∧ w'.Synced replies ∧
      w'.tls = w.tls := by
  obtain ⟨hempty, hserver⟩ := h
  obtain ⟨segments, server, hcons, hseg, hrest⟩ := List.map_eq_cons_iff.mp hserver
  have hbytes : w.answer.recvbuf ++ w.answer.inbound.flatten = reply.bytes := by
    simp only [Wire.answer, hcons, List.headD_cons, List.flatten_append, hseg]
    rw [← List.append_assoc, hempty, List.nil_append]
  obtain ⟨buffer, inbound, hreceive, htail⟩ := receive_reply hfits hbytes
  refine ⟨_, hreceive, ⟨htail, ?_⟩, rfl⟩
  simpa only [Wire.answer, hcons, List.tail_cons] using hrest

theorem exchange_unanswered {throws : Bool} {how : Receive} {w : Wire} (h : w.Synced []) :
    exchange throws true how w = none := by
  obtain ⟨hempty, hserver⟩ := h
  have hnil : w.server = [] := List.map_eq_nil_iff.mp hserver
  obtain ⟨hbuf, hin⟩ := List.append_eq_nil_iff.mp hempty
  have hempty' : w.answer.recvbuf ++ w.answer.inbound.flatten = [] := by
    simp [Wire.answer, hbuf, hnil, hin]
  have hread : readUntil w.answer.recvbuf w.answer.inbound = none :=
    readUntil_bytes_none (by rw [hempty']; rfl)
  have hline : receiveLine throws w.answer = none := by simp only [receiveLine, hread]
  cases how with
  | code => simp [exchange, receive, receiveCode, hline]
  | message => simp [exchange, receive, receiveMessage, hline]
  | ehlo => simp [exchange, receive, receiveEhlo, receiveEhloLoop, hline]

/-- By induction on the operation: before each of its steps the wire is in step with the replies
that are left. -/
theorem run_answered {throws : Bool} {p : Prog} {w : Wire} {replies : List Reply}
    (hmeets : p.Meets throws w.tls replies) (h : w.Synced replies) :
    (p.run throws w).log = (p.answered replies).log ∧
      EndsAs w.tls (p.answered replies).ended (p.run throws w).ended := by
  induction p generalizing w replies with
  | done r f => exact ⟨rfl, w, rfl, h, rfl⟩
  | connect next ih =>
    have hsynced : Wire.Synced { w with inbound := [] } replies :=
      ⟨by simp [(List.append_eq_nil_iff.mp h.1).1], h.2⟩
    exact ih (w := { w with inbound := [] }) hmeets hsynced
  | exchange send readable how next ih =>
    cases replies with
    | nil =>
      obtain rfl : readable = true := hmeets
      simp only [Prog.run, exchange_unanswered h]
      exact ⟨rfl, rfl⟩
    | cons reply replies =>
      obtain ⟨⟨rfl, hfits⟩, hmeets⟩ := hmeets
      obtain ⟨w', hexchange, hsynced, htls⟩ := exchange_synced hfits h
      obtain ⟨hlog, hended⟩ := ih (reply.received how) (htls ▸ hmeets) hsynced
      rw [htls] at hended
      rw [run_exchange hexchange rfl, Prog.answered, hlog]
      exact ⟨rfl, hended⟩
  | handshake f next ih =>
    obtain ⟨htls, hmeets⟩ := hmeets
    obtain ⟨hbuf, hin⟩ := List.append_eq_nil_iff.mp h.1
    have hok : w.handshake.1 = true := by simp [Wire.handshake, htls, hin]
    have hsynced : w.handshake.2.Synced replies := ⟨by simp [Wire.handshake, hbuf], h.2⟩
    simp only [Prog.run, Prog.answered, hok]
    exact ih true (w := w.handshake.2) hmeets hsynced

/-- What the caller sees of an operation. -/
def Outcome.observed (o : Outcome) : List (List UInt8 × Nat) × Option Result :=
  (o.log, o.ended.map Prod.fst)

def Answered.observed (o : Answered) : List (List UInt8 × Nat) × Option Result :=
  (o.log, o.ended.map Prod.fst)

theorem session_observed {cfg : Config} {throws : Bool} {ops : List Op} {f : Flags} {w : Wire}
    {replies : List Reply} (hmeets : SessionMeets cfg throws w.tls ops f replies)
    (h : w.Synced replies) :
    (session cfg throws ops f w).map Outcome.observed =
      (sessionAnswered cfg throws ops f replies).map Answered.observed := by
  induction ops generalizing f w replies with
  | nil => rfl
  | cons op ops ih =>
    obtain ⟨hop, hops⟩ := hmeets
    obtain ⟨hlog, hended⟩ := run_answered hop h
    rw [session, sessionAnswered]
    rcases hanswered : ((op.prog cfg throws f).answered replies).ended with _ | ⟨res, g, rest⟩
    · rw [hanswered] at hended
      have hnone : (Prog.run throws (op.prog cfg throws f) w).ended = none := hended
      simp [hnone, Outcome.observed, Answered.observed, hlog, hanswered]
    · rw [hanswered] at hended hops
      obtain ⟨v, hsome, hsynced, htls⟩ := hended
      have hrest := ih (htls.symm ▸ hops) hsynced
      simp [hsome, Outcome.observed, Answered.observed, hlog, hanswered] at hrest ⊢
      exact hrest

/-- An operation returns the code of the last reply, where `last` is the one before it goes on. -/
def Prog.Returns : Prog → Option Nat → Prop
  | .done res _, last => ∀ n ∈ last, res = .code n
  | .connect next, last => next.Returns last
  | .exchange _ _ _ next, _ => ∀ r : Received, r.thrown = false → (next r).Returns (some r.code)
  | .handshake _ next, last => (next true).Returns last

theorem answered_codes (p : Prog) (replies : List Reply) :
    ∃ rest, replies.map Reply.code = (p.answered replies).log.map Prod.snd ++
        rest.map Reply.code ∧
      match (p.answered replies).ended with
      | none => rest = []
      | some (_, _, left) => rest = left := by
  induction p generalizing replies with
  | done res f => exact ⟨replies, rfl, rfl⟩
  | connect next ih => exact ih replies
  | exchange send readable how next ih =>
    cases replies with
    | nil => exact ⟨[], rfl, rfl⟩
    | cons reply replies =>
      obtain ⟨rest, hcodes, hrest⟩ := ih (reply.received how) replies
      exact ⟨rest, congrArg (reply.code :: ·) hcodes, hrest⟩
  | handshake f next ih => exact ih true replies

theorem answered_returns {p : Prog} {last : Option Nat} (hp : p.Returns last)
    {replies : List Reply} {res : Result} {f : Flags} {left : List Reply}
    (h : (p.answered replies).ended = some (res, f, left)) :
    ∀ n ∈ ((p.answered replies).log.map Prod.snd).getLast?.or last, res = .code n := by
  induction p generalizing last replies with
  | done res' f' =>
    obtain ⟨rfl, -⟩ := Prod.ext_iff.mp (Option.some.inj h)
    exact hp
  | connect next ih => exact ih hp h
  | exchange send readable how next ih =>
    cases replies with
    | nil => cases h
    | cons reply replies =>
      have hrest := ih (reply.received how) (hp (reply.received how) rfl) h
      rw [Option.or_some] at hrest
      simpa only [Prog.answered, List.map_cons, List.getLast?_cons, Option.some_or,
        Reply.received_code] using hrest
  | handshake f' next ih => exact ih true hp h

section Operations

variable (cfg : Config) (throws : Bool) (f : Flags)

theorem returns_fail : (fail throws f).Returns none := fun _ hn => by cases hn

theorem returns_result (g : Flags) {r : Received} (hr : r.thrown = false) :
    (Prog.done r.result g).Returns (some r.code) := by
  intro n hn
  obtain rfl := Option.some.inj hn
  rw [Received.result, hr]
  rfl

theorem returns_simple (send : List UInt8) {last : Option Nat} (h : f.isOpen = true ∨ last = none) :
    (simple throws f send).Returns last := by
  rw [simple]
  split
  · exact fun r hr => returns_result f hr
  · obtain rfl := h.resolve_left ‹_›
    exact returns_fail throws f

theorem returns_loginPlain (user pass : List UInt8) {res : Nat} {last : Option Nat}
    (hres : ∀ n ∈ last, res = n) (h : f.isOpen = true ∨ last = none) :
    (loginPlain throws f user pass res).Returns last := by
  rw [loginPlain]
  split
  · exact returns_simple throws f _ h
  · exact fun n hn => congrArg Result.code (hres n hn)

theorem returns_afterCramMd5 (user pass : List UInt8) {r : Received} (hr : r.thrown = false)
    (hopen : f.isOpen = true) : (afterCramMd5 throws f user pass r).Returns (some r.code) := by
  have hres : ∀ n ∈ some r.code, r.code = n := fun n hn => Option.some.inj hn
  rw [afterCramMd5, if_neg (by simp [hr])]
  split
  · exact fun n hn => congrArg Result.code (hres n hn)
  · exact returns_loginPlain throws f user pass hres (.inl hopen)

theorem returns_login (user pass : List UInt8) : (login cfg throws f user pass).Returns none := by
  rw [login]
  split
  · split
    · intro r hr
      dsimp only
      split
      · exact returns_afterCramMd5 throws f user pass hr ‹_›
      · exact fun r hr => returns_afterCramMd5 throws f user pass hr ‹_›
    · exact returns_fail throws f
  · exact returns_loginPlain throws f user pass (by simp) (.inr rfl)

theorem returns_ehlo (hostname : List UInt8) : (ehlo cfg throws f hostname).Returns none := by
  rw [ehlo]
  split
  · intro r hr
    dsimp only
    split
    · exact returns_result _ hr
    · intro r hr
      dsimp only
      split
      · exact returns_result _ hr
      · show Prog.Returns (if r.code ≥ 400 then _ else _) _
        split
        · exact fun n hn => congrArg Result.code (Option.some.inj hn)
        · exact fun r hr => returns_result _ hr
  · exact returns_fail throws f

theorem returns_data (content : List UInt8) : (data throws f content).Returns none := by
  rw [data]
  split
  · intro r hr
    dsimp only
    split
    · exact returns_result f hr
    · exact fun r hr => returns_result f hr
  · exact returns_fail throws f

theorem returns_op (op : Op) : (op.prog cfg throws f).Returns none := by
  cases op with
  | connect connected =>
    rw [Op.prog, connect]
    split
    · exact fun r hr => returns_result _ hr
    · exact returns_fail throws _
  | helo hostname => exact returns_simple throws f _ (.inr rfl)
  | ehlo hostname => exact returns_ehlo cfg throws f hostname
  | login user pass => exact returns_login cfg throws f user pass
  | mail address => exact returns_simple throws f _ (.inr rfl)
  | rcpt address => exact returns_simple throws f _ (.inr rfl)
  | data content => exact returns_data throws f content
  | quit =>
    rw [Op.prog, quit]
    split
    · exact fun r hr => returns_result _ hr
    · exact returns_fail throws f

end Operations

theorem sessionAnswered_codes (cfg : Config) (throws : Bool) (ops : List Op) (f : Flags)
    (replies : List Reply) :
    ∃ rest, replies.map Reply.code =
        ((sessionAnswered cfg throws ops f replies).flatMap fun o => o.log.map Prod.snd) ++
          rest.map Reply.code ∧
      ∀ o ∈ sessionAnswered cfg throws ops f replies, o.ended = none → rest = [] := by
  induction ops generalizing f replies with
  | nil => exact ⟨replies, rfl, fun o ho => absurd ho List.not_mem_nil⟩
  | cons op ops ih =>
    obtain ⟨rest, hcodes, hrest⟩ := answered_codes (op.prog cfg throws f) replies
    rw [sessionAnswered]
    rcases hended : ((op.prog cfg throws f).answered replies).ended with _ | ⟨res, g, left⟩
    · rw [hended] at hrest
      exact ⟨rest, by simpa using hcodes, fun _ _ _ => hrest⟩
    · rw [hended] at hrest
      obtain rfl : rest = left := hrest
      obtain ⟨rest', hcodes', hrest'⟩ := ih g rest
      refine ⟨rest', ?_, ?_⟩
      · rw [hcodes, hcodes', List.flatMap_cons, List.append_assoc]
      · intro o ho hnone
        rcases List.mem_cons.mp ho with rfl | ho
        · rw [hended] at hnone
          cases hnone
        · exact hrest' o ho hnone

theorem sessionAnswered_returns {cfg : Config} {throws : Bool} {ops : List Op} {f : Flags}
    {replies : List Reply} {o : Answered} (ho : o ∈ sessionAnswered cfg throws ops f replies)
    {res : Result} {g : Flags} {left : List Reply} (h : o.ended = some (res, g, left)) :
    ∀ n ∈ (o.log.map Prod.snd).getLast?, res = .code n := by
  induction ops generalizing f replies with
  | nil => cases ho
  | cons op ops ih =>
    have hop := @answered_returns _ none (returns_op cfg throws f op) replies res g left
    rw [Option.or_none] at hop
    rw [sessionAnswered] at ho
    rcases hended : ((op.prog cfg throws f).answered replies).ended with _ | ⟨res', g', left'⟩
    · rw [hended] at ho
      obtain rfl := List.mem_singleton.mp ho
      exact hop h
    · rw [hended] at ho
      rcases List.mem_cons.mp ho with rfl | ho
      · exact hop h
      · exact ih ho

/-- The `i`-th thing sent gets the code of the `i`-th reply, an operation waits only when there is
no reply left, and it returns the last code that it got. -/
theorem code_of_reply {cfg : Config} {throws : Bool} {ops : List Op} {f : Flags} {w : Wire}
    {replies : List Reply} (hmeets : SessionMeets cfg throws w.tls ops f replies)
    (h : w.Synced replies) :
    let seen := (session cfg throws ops f w).map Outcome.observed
    let codes := seen.flatMap fun o => o.1.map Prod.snd
    codes = (replies.take codes.length).map Reply.code ∧
      (∀ o ∈ seen, o.2 = none → codes.length = replies.length) ∧
      ∀ o ∈ seen, ∀ res, o.2 = some res →
        ∀ n ∈ (o.1.map Prod.snd).getLast?, res = .code n := by
  intro seen codes
  obtain ⟨rest, hcodes, hrest⟩ := sessionAnswered_codes cfg throws ops f replies
  have hseen : seen = (sessionAnswered cfg throws ops f replies).map Answered.observed :=
    session_observed hmeets h
  have heq : codes =
      (sessionAnswered cfg throws ops f replies).flatMap fun o => o.log.map Prod.snd := by
    simp only [codes, hseen, List.flatMap_map]
    rfl
  rw [← heq] at hcodes
  refine ⟨?_, ?_, ?_⟩
  · rw [List.map_take, hcodes, List.take_left]
  · intro o ho hnone
    rw [hseen] at ho
    obtain ⟨o', ho', rfl⟩ := List.mem_map.mp ho
    have hnil := hrest o' ho' (Option.map_eq_none_iff.mp hnone)
    have hlen := congrArg List.length hcodes
    simpa [hnil] using hlen.symm
  · intro o ho res hres
    rw [hseen] at ho
    obtain ⟨o', ho', rfl⟩ := List.mem_map.mp ho
    obtain ⟨⟨res', g, left⟩, hended, rfl⟩ := Option.map_eq_some_iff.mp hres
    exact sessionAnswered_returns ho' hended

section Runs

def greeting : Reply := ⟨220, [], octets "mx", by decide, by decide⟩

def longGreeting : Reply := ⟨220, [octets "mx"], octets "hello", by decide, by decide⟩

def extensions : Reply := ⟨250, [octets "mx", octets "SIZE"], octets "AUTH PLAIN", by decide, by decide⟩

def accepted : Reply := ⟨250, [], octets "ok", by decide, by decide⟩

def closing : Reply := ⟨221, [], [], by decide, by decide⟩

/-- Every reply comes in at once. -/
def wireOf (replies : List Reply) : Wire := ⟨[], [], replies.map fun r => [r.bytes], false⟩

def noHmac : Config := ⟨octets "here", fun _ _ => []⟩

theorem code_of_reply_of_ehlo :
    let seen := (session noHmac true [.connect true, .ehlo [], .login [97] [98], .quit]
      (Flags.make 0) (wireOf [greeting, extensions, accepted, closing])).map Outcome.observed
    let codes := seen.flatMap fun o => o.1.map Prod.snd
    codes = ([greeting, extensions, accepted, closing].take codes.length).map Reply.code ∧
      (∀ o ∈ seen, o.2 = none → codes.length = [greeting, extensions, accepted, closing].length) ∧
      ∀ o ∈ seen, ∀ res, o.2 = some res →
        ∀ n ∈ (o.1.map Prod.snd).getLast?, res = .code n :=
  code_of_reply (by decide) ⟨by decide, by decide⟩

/-- The second line of the greeting is taken for the reply to the next command. -/
theorem second_line_answers_helo :
    (wireOf [longGreeting, accepted]).Synced [longGreeting, accepted] ∧
      ((session noHmac false [.connect true, .helo []] (Flags.make 0)
        (wireOf [longGreeting, accepted])).map fun o => o.log.map Prod.snd) = [[220], [220]] ∧
      [longGreeting, accepted].map Reply.code = [220, 250] :=
  ⟨⟨by decide, by decide⟩, by decide, rfl⟩

end Runs

end Smtp

end Asio

end Acqua

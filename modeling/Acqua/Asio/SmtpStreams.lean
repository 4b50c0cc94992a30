import Acqua.Asio.SmtpClient

/-! What is received is a function of the octets that come in, however they are cut into reads. -/

namespace Acqua

namespace Asio

namespace Smtp

/-- What there is to read. -/
def Wire.stream (w : Wire) : List UInt8 := w.recvbuf ++ w.inbound.flatten

section Streams

variable (throws : Bool)

/-- `receiveLine` on what there is to read, with the rest of it. -/
def lineIn (s : List UInt8) : Option (Nat × Bool × List UInt8 × List UInt8) :=
  (findCrlf s).map fun n =>
    let (res, error) := parseResponseCode s n
    (res, error, textOf s n, if throws && error then s else s.drop n)

def ehloIn : Nat → List (List UInt8) → List UInt8 → Option (Received × List UInt8)
  | 0, _, _ => none
  | fuel + 1, texts, s =>
    match lineIn throws s with
    | none => none
    | some (res, error, text, rest) =>
      if throws && error then some (⟨res, texts, error, true⟩, rest)
      else
        let texts := if res ≠ 0 then texts ++ [text] else texts
        if res > 0 ∧ s[3]? = some (chr '-') then ehloIn fuel texts rest
        else some (⟨res, texts, error, false⟩, rest)

def receiveIn (how : Receive) (s : List UInt8) : Option (Received × List UInt8) :=
  match how with
  | .code => (lineIn throws s).map fun (res, error, _, rest) =>
      (⟨res, [], error, throws && error⟩, rest)
  | .message => (lineIn throws s).map fun (res, error, text, rest) =>
      (⟨res, if error then [] else [text], error, throws && error⟩, rest)
  | .ehlo => ehloIn throws (s.length + 1) [] s

/-- A receive function on `w` does what it does on what there is to read. -/
def Wire.Reads (w : Wire) (o : Option (Received × Wire)) (s : Option (Received × List UInt8)) :
    Prop :=
  match s with
  | none => o = none
  | some (r, rest) => ∃ buffer inbound,
      o = some (r, { w with recvbuf := buffer, inbound := inbound }) ∧
        buffer ++ inbound.flatten = rest

theorem parseResponseCode_append {s : List UInt8} {n : Nat} (hn : n ≤ s.length) (t : List UInt8) :
    parseResponseCode (s ++ t) n = parseResponseCode s n := by
  match s with
  | a :: b :: c :: s => rfl
  | [a, b] | [a] | [] =>
    have hlt : ¬ n ≥ 6 := by simp at hn; omega
    simp only [parseResponseCode]
    split <;> simp [hlt]

theorem textOf_append {s : List UInt8} {n : Nat} (hn : n ≤ s.length) (t : List UInt8) :
    textOf (s ++ t) n = textOf s n := by
  by_cases h : n < 6
  · simp [textOf, Nat.sub_eq_zero_of_le h.le]
  · have hdrop : (s ++ t).drop 4 = s.drop 4 ++ t := List.drop_append_of_le_length (by omega)
    rw [textOf, textOf, hdrop, List.take_append_of_le_length (by simp; omega)]

theorem six_le_of_code {s : List UInt8} {n : Nat} (h : (parseResponseCode s n).1 > 0) : n ≥ 6 := by
  by_contra hlt
  have hbad : parseResponseCode s n = (0, true) := by
    match s with
    | a :: b :: c :: s => exact if_neg fun hc => hlt hc.1
    | [a, b] | [a] | [] => rfl
  rw [hbad] at h
  exact absurd h (Nat.lt_irrefl 0)

theorem receiveLine_stream {w : Wire} :
    match lineIn throws w.stream with
    | none => receiveLine throws w = none
    | some (res, error, text, rest) => ∃ data buffer inbound,
        receiveLine throws w =
            some (res, error, data, text, { w with recvbuf := buffer, inbound := inbound }) ∧
          buffer ++ inbound.flatten = rest ∧ (res > 0 → data[3]? = w.stream[3]?) := by
  rcases hfind : findCrlf w.stream with _ | n
  · simp only [lineIn, hfind, Option.map_none, receiveLine, readUntil_bytes_none hfind]
  · obtain ⟨data, inbound, hread, hle, hbytes⟩ := readUntil_bytes hfind
    have hstream : w.stream = data ++ inbound.flatten := hbytes.symm
    have hcode : parseResponseCode w.stream n = parseResponseCode data n := by
      rw [hstream, parseResponseCode_append hle]
    have htext : textOf w.stream n = textOf data n := by rw [hstream, textOf_append hle]
    simp only [lineIn, hfind, Option.map_some, receiveLine, hread, hcode, htext]
    refine ⟨data, _, inbound, rfl, ?_, ?_⟩
    · split
      · exact hbytes
      · rw [hstream, List.drop_append_of_le_length hle]
    · intro hres
      have hsix := six_le_of_code hres
      rw [hstream, List.getElem?_append_left (by omega)]

theorem receiveEhloLoop_stream (fuel : Nat) (texts : List (List UInt8)) (w : Wire) :
    w.Reads (receiveEhloLoop throws fuel texts w) (ehloIn throws fuel texts w.stream) := by
  induction fuel generalizing texts w with
  | zero => rfl
  | succ fuel ih =>
    have hline := @receiveLine_stream throws w
    rw [receiveEhloLoop, ehloIn]
    rcases hin : lineIn throws w.stream with _ | ⟨res, error, text, rest⟩
    · rw [hin] at hline
      simp only [hline]
      rfl
    · rw [hin] at hline
      obtain ⟨data, buffer, inbound, hreceive, hrest, hdash⟩ := hline
      simp only [hreceive]
      split
      · exact ⟨buffer, inbound, rfl, hrest⟩
      · have hiff : (res > 0 ∧ data[3]? = some (chr '-')) ↔
            res > 0 ∧ w.stream[3]? = some (chr '-') :=
          and_congr_right fun hres => by rw [hdash hres]
        by_cases hmore : res > 0 ∧ w.stream[3]? = some (chr '-')
        · rw [if_pos (hiff.mpr hmore), if_pos hmore, ← hrest]
          exact ih _ { w with recvbuf := buffer, inbound := inbound }
        · rw [if_neg (mt hiff.mp hmore), if_neg hmore]
          exact ⟨buffer, inbound, rfl, hrest⟩

theorem receive_stream (how : Receive) (w : Wire) :
    w.Reads (receive throws how w) (receiveIn throws how w.stream) := by
  have hline := @receiveLine_stream throws w
  cases how with
  | ehlo =>
    have hlen : w.recvbuf.length + w.inbound.flatten.length = w.stream.length :=
      List.length_append.symm
    rw [receive, receiveEhlo, hlen]
    exact receiveEhloLoop_stream throws _ _ w
  | code =>
    rcases hin : lineIn throws w.stream with _ | ⟨res, error, text, rest⟩
    · rw [hin] at hline
      simp only [receive, receiveCode, hline, receiveIn, hin]
      rfl
    · rw [hin] at hline
      obtain ⟨data, buffer, inbound, hreceive, hrest, -⟩ := hline
      simp only [receive, receiveCode, hreceive, receiveIn, hin]
      exact ⟨buffer, inbound, rfl, hrest⟩
  | message =>
    rcases hin : lineIn throws w.stream with _ | ⟨res, error, text, rest⟩
    · rw [hin] at hline
      simp only [receive, receiveMessage, hline, receiveIn, hin]
      rfl
    · rw [hin] at hline
      obtain ⟨data, buffer, inbound, hreceive, hrest, -⟩ := hline
      simp only [receive, receiveMessage, hreceive, receiveIn, hin]
      exact ⟨buffer, inbound, rfl, hrest⟩

/-- The octets to read and those still to come are the same, cut in any way. -/
def Wire.Same (w₁ w₂ : Wire) : Prop :=
  w₁.stream = w₂.stream ∧ w₁.server.map List.flatten = w₂.server.map List.flatten

theorem rel_imp {α β : Type} {r s : α → β → Prop} (h : ∀ a b, r a b → s a b) {x : Option α}
    {y : Option β} (hxy : Option.Rel r x y) : Option.Rel s x y := by
  cases hxy with
  | some hab => exact .some (h _ _ hab)
  | none => exact .none

theorem flatten_headD (server : List (List (List UInt8))) :
    (server.headD []).flatten = (server.map List.flatten).headD [] := by
  cases server <;> rfl

theorem answer_stream (w : Wire) :
    w.answer.stream = w.stream ++ (w.server.map List.flatten).headD [] := by
  rw [← flatten_headD]
  simp [Wire.stream, Wire.answer]

theorem exchange_same {how : Receive} {w₁ w₂ : Wire} (h : w₁.Same w₂) :
    Option.Rel (fun a b => a.1 = b.1 ∧ a.2.Same b.2) (exchange throws true how w₁)
      (exchange throws true how w₂) := by
  obtain ⟨hstream, hserver⟩ := h
  have htail : w₁.server.tail.map List.flatten = w₂.server.tail.map List.flatten := by
    rw [List.map_tail, hserver, List.map_tail]
  have hanswer : w₁.answer.stream = w₂.answer.stream := by
    rw [answer_stream, answer_stream, hstream, hserver]
  have hreads₁ := receive_stream throws how w₁.answer
  have hreads₂ := receive_stream throws how w₂.answer
  rw [hanswer] at hreads₁
  simp only [exchange, if_true]
  rcases hin : receiveIn throws how w₂.answer.stream with _ | ⟨r, rest⟩
  · rw [hin] at hreads₁ hreads₂
    rw [show receive throws how w₁.answer = none from hreads₁,
      show receive throws how w₂.answer = none from hreads₂]
    exact .none
  · rw [hin] at hreads₁ hreads₂
    obtain ⟨buffer₁, inbound₁, hr₁, hrest₁⟩ := hreads₁
    obtain ⟨buffer₂, inbound₂, hr₂, hrest₂⟩ := hreads₂
    rw [hr₁, hr₂]
    exact .some ⟨rfl, hrest₁.trans hrest₂.symm, htail⟩

/-- An operation that only sends and receives, and ends with flags of which `P` holds. -/
def Prog.Plain (P : Flags → Prop) : Prog → Prop
  | .done _ f => P f
  | .connect _ => False
  | .exchange _ readable _ next => readable = true ∧ ∀ r, (next r).Plain P
  | .handshake _ _ => False

theorem run_same {P : Flags → Prop} {p : Prog} (hp : p.Plain P) {w₁ w₂ : Wire}
    (h : w₁.Same w₂) :
    (p.run throws w₁).log = (p.run throws w₂).log ∧
      Option.Rel (fun a b => a.1 = b.1 ∧ a.2.1 = b.2.1 ∧ P a.2.1 ∧ a.2.2.Same b.2.2)
        (p.run throws w₁).ended (p.run throws w₂).ended := by
  induction p generalizing w₁ w₂ with
  | done r f => exact ⟨rfl, .some ⟨rfl, rfl, hp, h⟩⟩
  | connect next => exact hp.elim
  | handshake f next => exact hp.elim
  | exchange send readable how next ih =>
    obtain ⟨rfl, hp⟩ := hp
    have hrel := @exchange_same throws how _ _ h
    simp only [Prog.run]
    rcases h₁ : exchange throws true how w₁ with _ | ⟨r₁, v₁⟩ <;>
      rcases h₂ : exchange throws true how w₂ with _ | ⟨r₂, v₂⟩ <;> rw [h₁, h₂] at hrel
    · exact ⟨rfl, .none⟩
    · cases hrel
    · cases hrel
    · obtain ⟨rfl, hsame⟩ : r₁ = r₂ ∧ v₁.Same v₂ := by cases hrel; assumption
      obtain ⟨hlog, hended⟩ := ih r₁ (hp r₁) hsame
      dsimp only
      split
      · exact ⟨hlog, hended⟩
      · exact ⟨by rw [hlog], hended⟩

end Streams

/-- All but the mechanisms. -/
def Flags.rest (f : Flags) : Flags :=
  { f with enableAuthPlain := false, enableAuthLogin := false, enableAuthCramMd5 := false }

theorem noteAll_rest (f : Flags) (texts : List (List UInt8)) : (f.noteAll texts).rest = f.rest := by
  induction texts generalizing f with
  | nil => rfl
  | cons text texts ih =>
    have hnote : (f.note text).rest = f.rest := by
      rw [Flags.note]
      split <;> rfl
    exact (ih (f.note text)).trans hnote

theorem noteAll_enableTls (f : Flags) (texts : List (List UInt8)) :
    (f.noteAll texts).enableTls = f.enableTls := by
  show (f.noteAll texts).rest.enableTls = f.rest.enableTls
  rw [noteAll_rest]

/-- What the caller sees of an operation, with the mechanisms that are enabled then. -/
def Flags.mechanisms (f : Flags) : Bool × Bool × Bool :=
  (f.enableAuthPlain, f.enableAuthLogin, f.enableAuthCramMd5)

theorem flags_ext {f g : Flags} (hrest : f.rest = g.rest) (hmech : f.mechanisms = g.mechanisms) :
    f = g := by
  cases f
  cases g
  simp_all [Flags.rest, Flags.mechanisms]

def Outcome.seen (o : Outcome) : List (List UInt8 × Nat) × Option (Result × Bool × Bool × Bool) :=
  (o.log, o.ended.map fun (res, f, _) => (res, f.mechanisms))

section Tls

variable (cfg : Config) (throws : Bool) {f : Flags}

theorem simple_plain (htls : f.enableTls = true) (send : List UInt8) :
    (simple throws f send).Plain fun g => g.enableTls = true := by
  rw [simple]
  split
  · exact ⟨rfl, fun _ => htls⟩
  · exact htls

theorem loginPlain_plain (htls : f.enableTls = true) (user pass : List UInt8) (res : Nat) :
    (loginPlain throws f user pass res).Plain fun g => g.enableTls = true := by
  rw [loginPlain]
  split
  · exact simple_plain throws htls _
  · exact htls

theorem afterCramMd5_plain (htls : f.enableTls = true) (user pass : List UInt8) (r : Received) :
    (afterCramMd5 throws f user pass r).Plain fun g => g.enableTls = true := by
  rw [afterCramMd5]
  split
  · exact htls
  · split
    · exact htls
    · exact loginPlain_plain throws htls user pass r.code

theorem plain_op {op : Op} (hop : ∀ connected, op ≠ .connect connected)
    (htls : f.enableTls = true) :
    (op.prog cfg throws f).Plain fun g => g.enableTls = true := by
  cases op with
  | connect connected => exact absurd rfl (hop connected)
  | helo hostname => exact simple_plain throws htls _
  | ehlo hostname =>
    rw [Op.prog, ehlo]
    split
    · refine ⟨rfl, fun r => ?_⟩
      have hno : f.useStarttls r.texts = false := by simp [Flags.useStarttls, htls]
      dsimp only
      rw [if_pos (Or.inr hno)]
      exact (noteAll_enableTls f r.texts).trans htls
    · exact htls
  | login user pass =>
    rw [Op.prog, login]
    split
    · split
      · refine ⟨rfl, fun r => ?_⟩
        dsimp only
        split
        · exact afterCramMd5_plain throws htls user pass r
        · exact ⟨rfl, afterCramMd5_plain throws htls user pass⟩
      · exact htls
    · exact loginPlain_plain throws htls user pass 0
  | mail address => exact simple_plain throws htls _
  | rcpt address => exact simple_plain throws htls _
  | data content =>
    rw [Op.prog, data]
    split
    · refine ⟨rfl, fun r => ?_⟩
      dsimp only
      split
      · exact htls
      · exact ⟨rfl, fun _ => htls⟩
    · exact htls
  | quit =>
    rw [Op.prog, quit]
    split
    · refine ⟨rfl, fun r => ?_⟩
      show Flags.enableTls (if _ then _ else _) = true
      split
      · exact htls
      · exact htls
    · exact htls

theorem closed_op {op : Op} (hop : ∀ connected, op ≠ .connect connected)
    (hclosed : f.isOpen = false) : ∃ r, op.prog cfg throws f = .done r f := by
  have hif : ¬ f.isOpen = true := by simp [hclosed]
  have hsimple (send : List UInt8) : ∃ r, simple throws f send = .done r f :=
    ⟨_, by rw [simple, if_neg hif]; rfl⟩
  cases op with
  | connect connected => exact absurd rfl (hop connected)
  | helo hostname => exact hsimple _
  | ehlo hostname => exact ⟨_, by rw [Op.prog, ehlo, if_neg hif]; rfl⟩
  | login user pass =>
    rw [Op.prog, login, if_neg hif]
    split
    · exact ⟨_, rfl⟩
    · rw [loginPlain]
      split
      · exact hsimple _
      · exact ⟨_, rfl⟩
  | mail address => exact hsimple _
  | rcpt address => exact hsimple _
  | data content => exact ⟨_, by rw [Op.prog, data, if_neg hif]; rfl⟩
  | quit => exact ⟨_, by rw [Op.prog, quit, if_neg hif]; rfl⟩

/-- TLS is on, and what is to come is the same as long as it is read. -/
structure Related (f : Flags) (w₁ w₂ : Wire) : Prop where
  tls : f.enableTls = true
  server : w₁.server.map List.flatten = w₂.server.map List.flatten
  stream : f.isOpen = true → w₁.stream = w₂.stream

theorem op_related (op : Op) {w₁ w₂ : Wire} (h : Related f w₁ w₂) :
    (Prog.run throws (op.prog cfg throws f) w₁).log =
        (Prog.run throws (op.prog cfg throws f) w₂).log ∧
      Option.Rel (fun a b => a.1 = b.1 ∧ a.2.1 = b.2.1 ∧ Related a.2.1 a.2.2 b.2.2)
        (Prog.run throws (op.prog cfg throws f) w₁).ended
        (Prog.run throws (op.prog cfg throws f) w₂).ended := by
  by_cases hop : ∀ connected, op ≠ .connect connected
  · by_cases hopen : f.isOpen = true
    · obtain ⟨hlog, hended⟩ :=
        run_same throws (plain_op cfg throws hop h.tls) ⟨h.stream hopen, h.server⟩
      refine ⟨hlog, rel_imp (fun a b hab => ?_) hended⟩
      obtain ⟨hres, hflags, htls, hsame⟩ := hab
      exact ⟨hres, hflags, htls, hsame.2, fun _ => hsame.1⟩
    · obtain ⟨r, hr⟩ := closed_op cfg throws hop (Bool.eq_false_iff.mpr hopen)
      rw [hr]
      exact ⟨rfl, .some ⟨rfl, rfl, h⟩⟩
  · obtain ⟨connected, hconnect⟩ := not_forall_not.mp hop
    subst hconnect
    have htail : w₁.server.tail.map List.flatten = w₂.server.tail.map List.flatten := by
      rw [List.map_tail, h.server, List.map_tail]
    cases connected with
    | false => exact ⟨rfl, .some ⟨rfl, rfl, h.tls, h.server, fun hopen => by cases hopen⟩⟩
    | true =>
      simp only [Op.prog, connect, h.tls, if_true, Prog.run, exchange, Bool.not_true,
        Bool.false_eq_true, if_false]
      exact ⟨by cases throws <;> rfl, by
        cases throws <;>
          exact .some ⟨rfl, rfl, rfl, htail, fun hopen => by cases hopen⟩⟩

/-- What is seen of an operation and of those after it. -/
def seenFrom (ops : List Op) (o : Outcome) :
    List (List (List UInt8 × Nat) × Option (Result × Bool × Bool × Bool)) :=
  o.seen :: match o.ended with
    | none => []
    | some (_, f, w) => (session cfg throws ops f w).map Outcome.seen

theorem seenFrom_session (op : Op) (ops : List Op) (f : Flags) (w : Wire) :
    (session cfg throws (op :: ops) f w).map Outcome.seen =
      seenFrom cfg throws ops (Prog.run throws (op.prog cfg throws f) w) := by
  rw [session, seenFrom]
  rcases (Prog.run throws (op.prog cfg throws f) w).ended with _ | ⟨res, g, v⟩ <;> rfl

theorem seenFrom_related {ops : List Op}
    (hops : ∀ {f : Flags} {w₁ w₂ : Wire}, Related f w₁ w₂ →
      (session cfg throws ops f w₁).map Outcome.seen =
        (session cfg throws ops f w₂).map Outcome.seen)
    {o₁ o₂ : Outcome} (hlog : o₁.log = o₂.log)
    (hended : Option.Rel (fun a b => a.1 = b.1 ∧ a.2.1 = b.2.1 ∧ Related a.2.1 a.2.2 b.2.2)
      o₁.ended o₂.ended) : seenFrom cfg throws ops o₁ = seenFrom cfg throws ops o₂ := by
  obtain ⟨log₁, ended₁⟩ := o₁
  obtain ⟨log₂, ended₂⟩ := o₂
  dsimp only at hlog hended
  subst hlog
  cases hended with
  | none => rfl
  | @some a b hab =>
    obtain ⟨r₁, g₁, v₁⟩ := a
    obtain ⟨r₂, g₂, v₂⟩ := b
    obtain ⟨rfl, rfl, hrel⟩ := hab
    exact congrArg (Outcome.seen ⟨log₁, some (r₁, g₁, v₁)⟩ :: ·) (hops hrel)

theorem session_related (ops : List Op) {f : Flags} {w₁ w₂ : Wire} (h : Related f w₁ w₂) :
    (session cfg throws ops f w₁).map Outcome.seen =
      (session cfg throws ops f w₂).map Outcome.seen := by
  induction ops generalizing f w₁ w₂ with
  | nil => rfl
  | cons op ops ih =>
    obtain ⟨hlog, hended⟩ := op_related cfg throws op h
    rw [seenFrom_session, seenFrom_session]
    exact seenFrom_related cfg throws ih hlog hended

end Tls

end Smtp

end Asio

end Acqua

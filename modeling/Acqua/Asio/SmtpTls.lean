import Acqua.Asio.SmtpStreams

/-! STARTTLS: what of the time before the handshake tells two runs apart after it. -/

namespace Acqua

namespace Asio

namespace Smtp

/-- `ehlo` up to the end of a handshake that succeeds: the flags and the wire then. -/
def negotiate (throws : Bool) (f : Flags) (w : Wire) : Option (Flags × Wire) :=
  if f.isOpen then
    match exchange throws true .ehlo w with
    | none => none
    | some (r, w) =>
      if r.thrown ∨ f.useStarttls r.texts = false then none
      else
        match exchange throws true .code w with
        | none => none
        | some (r', w) =>
          if r'.thrown ∨ r'.code = 0 ∨ r'.code ≥ 400 ∨ w.handshake.1 = false then none
          else some ({ f.noteAll r.texts with enableTls := true }, w.handshake.2)
  else none

/-- `server` comes in after what the server of `w` sends. -/
def Wire.followedBy (w : Wire) (server : List (List (List UInt8))) : Wire :=
  { w with server := w.server ++ server }

/-- What is seen after the first two replies, which are those in clear text. -/
def afterTls : List Outcome → List (List (List UInt8 × Nat) × Option (Result × Bool × Bool × Bool))
  | [] => []
  | o :: rest => { o with log := o.log.drop 2 }.seen :: rest.map Outcome.seen

/-- With the same octets over TLS, the runs that begin with `w₁` and `w₂` look the same. -/
def Isolated (cfg : Config) (throws : Bool) (f : Flags) (hostname : List UInt8) (w₁ w₂ : Wire) :
    Prop :=
  ∀ tls₁ tls₂ : List (List (List UInt8)), tls₁.map List.flatten = tls₂.map List.flatten →
    ∀ ops, afterTls (session cfg throws (.ehlo hostname :: ops) f (w₁.followedBy tls₁)) =
      afterTls (session cfg throws (.ehlo hostname :: ops) f (w₂.followedBy tls₂))

/-- A line of an EHLO reply that another one follows. -/
def Continues (throws : Bool) (s text rest : List UInt8) : Prop :=
  ∃ res error, lineIn throws s = some (res, error, text, rest) ∧ (throws && error) = false ∧
    res > 0 ∧ s[3]? = some (chr '-')

/-- Such lines with `texts`, and what is after them. -/
def Passes (throws : Bool) : List (List UInt8) → List UInt8 → List UInt8 → Prop
  | [], s, rest => s = rest
  | text :: texts, s, rest => ∃ s', Continues throws s text s' ∧ Passes throws texts s' rest

/-- What is left in the buffers is nothing but such lines, and the mechanisms that were enabled
in clear text or are enabled by them are the same. -/
def SameClear (throws : Bool) (f₁ f₂ : Flags) (left₁ left₂ : List UInt8) : Prop :=
  ∃ texts₁ texts₂, Passes throws texts₁ left₁ [] ∧ Passes throws texts₂ left₂ [] ∧
    (f₁.noteAll texts₁).mechanisms = (f₂.noteAll texts₂).mechanisms

section Absorption

variable {throws : Bool}

theorem lineIn_append {s : List UInt8} {res : Nat} {error : Bool} {text rest : List UInt8}
    (h : lineIn throws s = some (res, error, text, rest)) (t : List UInt8) :
    lineIn throws (s ++ t) = some (res, error, text, rest ++ t) := by
  obtain ⟨n, hn, heq⟩ := Option.map_eq_some_iff.mp h
  have hle := (findCrlf_le hn).1
  have hdrop : (s ++ t).drop n = s.drop n ++ t := List.drop_append_of_le_length hle
  simp only [Prod.mk.injEq] at heq
  obtain ⟨rfl, rfl, rfl, rfl⟩ := heq
  rw [lineIn, findCrlf_append hn, Option.map_some, parseResponseCode_append hle,
    textOf_append hle, hdrop]
  simp only [Option.some.injEq, Prod.mk.injEq, true_and]
  split <;> rfl

theorem lineIn_length {s : List UInt8} {res : Nat} {error : Bool} {text rest : List UInt8}
    (h : lineIn throws s = some (res, error, text, rest)) (hthrow : (throws && error) = false) :
    rest.length < s.length := by
  obtain ⟨n, hn, heq⟩ := Option.map_eq_some_iff.mp h
  obtain ⟨hle, htwo⟩ := findCrlf_le hn
  simp only [Prod.mk.injEq] at heq
  obtain ⟨rfl, rfl, rfl, rfl⟩ := heq
  rw [hthrow, if_neg Bool.false_ne_true, List.length_drop]
  omega

theorem Continues.append {s text rest : List UInt8} (h : Continues throws s text rest)
    (t : List UInt8) : Continues throws (s ++ t) text (rest ++ t) := by
  obtain ⟨res, error, hline, hthrow, hres, hdash⟩ := h
  have hlt : 3 < s.length := by
    by_contra hge
    rw [List.getElem?_eq_none (by omega)] at hdash
    cases hdash
  exact ⟨res, error, lineIn_append hline t, hthrow, hres, by rwa [List.getElem?_append_left hlt]⟩

theorem Continues.length_lt {s text rest : List UInt8} (h : Continues throws s text rest) :
    rest.length < s.length := by
  obtain ⟨res, error, hline, hthrow, -, -⟩ := h
  exact lineIn_length hline hthrow

theorem Passes.append {texts : List (List UInt8)} {s rest : List UInt8}
    (h : Passes throws texts s rest) (t : List UInt8) :
    Passes throws texts (s ++ t) (rest ++ t) := by
  induction texts generalizing s with
  | nil => exact congrArg (· ++ t) h
  | cons text texts ih =>
    obtain ⟨s', hcont, hpass⟩ := h
    exact ⟨s' ++ t, hcont.append t, ih hpass⟩

/-- Every round takes octets off, so that more rounds than octets are as good as any. -/
theorem ehloIn_fuel {fuel₁ fuel₂ : Nat} {s : List UInt8} (h₁ : s.length < fuel₁)
    (h₂ : s.length < fuel₂) (texts : List (List UInt8)) :
    ehloIn throws fuel₁ texts s = ehloIn throws fuel₂ texts s := by
  induction fuel₁ generalizing fuel₂ s texts with
  | zero => omega
  | succ fuel₁ ih =>
    obtain ⟨fuel₂, rfl⟩ : ∃ n, fuel₂ = n + 1 := ⟨fuel₂ - 1, by omega⟩
    rw [ehloIn, ehloIn]
    rcases hline : lineIn throws s with _ | ⟨res, error, text, rest⟩
    · rfl
    · dsimp only
      cases hthrow : throws && error with
      | true => rfl
      | false =>
        have hlt := lineIn_length hline hthrow
        rw [ih (show rest.length < fuel₁ by omega) (show rest.length < fuel₂ by omega)]

/-- What comes before is in front of the texts. -/
def prepend (texts : List (List UInt8)) (o : Received × List UInt8) : Received × List UInt8 :=
  ({ o.1 with texts := texts ++ o.1.texts }, o.2)

theorem ehloIn_texts (fuel : Nat) (texts more : List (List UInt8)) (s : List UInt8) :
    ehloIn throws fuel (texts ++ more) s = (ehloIn throws fuel more s).map (prepend texts) := by
  induction fuel generalizing more s with
  | zero => rfl
  | succ fuel ih =>
    rw [ehloIn, ehloIn]
    rcases lineIn throws s with _ | ⟨res, error, text, rest⟩
    · rfl
    · dsimp only
      have hnote : (if res ≠ 0 then texts ++ more ++ [text] else texts ++ more) =
          texts ++ if res ≠ 0 then more ++ [text] else more := by
        split
        · rw [List.append_assoc]
        · rfl
      rw [hnote, ih]
      split
      · rfl
      · split <;> rfl

theorem ehloIn_continues {s text rest : List UInt8} (h : Continues throws s text rest)
    (fuel : Nat) (texts : List (List UInt8)) :
    ehloIn throws (fuel + 1) texts s = ehloIn throws fuel (texts ++ [text]) rest := by
  obtain ⟨res, error, hline, hthrow, hres, hdash⟩ := h
  rw [ehloIn, hline]
  simp only [hthrow, Bool.false_eq_true, if_false]
  rw [if_pos ⟨hres, hdash⟩, if_pos (Nat.pos_iff_ne_zero.mp hres)]

theorem receiveIn_passes {texts : List (List UInt8)} {s rest : List UInt8}
    (h : Passes throws texts s rest) :
    receiveIn throws .ehlo s = (receiveIn throws .ehlo rest).map (prepend texts) := by
  induction texts generalizing s with
  | nil =>
    obtain rfl : s = rest := h
    have hid : prepend [] = id := rfl
    rw [hid, Option.map_id, id]
  | cons text texts ih =>
    obtain ⟨s', hcont, hpass⟩ := h
    have hrest := ih hpass
    simp only [receiveIn] at hrest ⊢
    rw [ehloIn_continues hcont, List.nil_append, ← List.append_nil [text], ehloIn_texts,
      ehloIn_fuel hcont.length_lt (Nat.lt_succ_self _), hrest, Option.map_map]
    rfl

/-- What a receive function finds with such lines before it is what it finds without them. -/
theorem receiveIn_absorbed {texts : List (List UInt8)} {left : List UInt8}
    (h : Passes throws texts left []) (t : List UInt8) :
    receiveIn throws .ehlo (left ++ t) = (receiveIn throws .ehlo t).map (prepend texts) :=
  receiveIn_passes (h.append t)

/-- By induction on the length: take such lines off as long as there are any. -/
theorem exists_passes (s : List UInt8) :
    ∃ texts rest, Passes throws texts s rest ∧ ∀ text rest', ¬ Continues throws rest text rest' := by
  induction hn : s.length using Nat.strong_induction_on generalizing s with
  | _ n ih =>
    by_cases hcont : ∃ text rest, Continues throws s text rest
    · obtain ⟨text, rest, hcont⟩ := hcont
      obtain ⟨texts, rest', hpass, hend⟩ := ih rest.length (hn ▸ hcont.length_lt) rest rfl
      exact ⟨text :: texts, rest', ⟨rest, hcont, hpass⟩, hend⟩
    · exact ⟨[], s, rfl, fun text rest hc => hcont ⟨text, rest, hc⟩⟩

end Absorption

section Handshake

variable {throws : Bool}

theorem receiveLine_followedBy (w : Wire) (server : List (List (List UInt8))) :
    receiveLine throws (w.followedBy server) =
      (receiveLine throws w).map fun (res, error, data, text, w) =>
        (res, error, data, text, w.followedBy server) := by
  have hread : readUntil (w.followedBy server).recvbuf (w.followedBy server).inbound =
      readUntil w.recvbuf w.inbound := rfl
  simp only [receiveLine, hread]
  rcases readUntil w.recvbuf w.inbound with _ | ⟨size, data, inbound⟩
  · rfl
  · rfl

theorem receiveEhloLoop_followedBy (fuel : Nat) (texts : List (List UInt8)) (w : Wire)
    (server : List (List (List UInt8))) :
    receiveEhloLoop throws fuel texts (w.followedBy server) =
      (receiveEhloLoop throws fuel texts w).map fun (r, w) => (r, w.followedBy server) := by
  induction fuel generalizing texts w with
  | zero => rfl
  | succ fuel ih =>
    rw [receiveEhloLoop, receiveEhloLoop, receiveLine_followedBy]
    rcases receiveLine throws w with _ | ⟨res, error, data, text, w'⟩
    · rfl
    · simp only [Option.map_some, ih]
      split
      · rfl
      · split <;> rfl

theorem receive_followedBy (how : Receive) (w : Wire) (server : List (List (List UInt8))) :
    receive throws how (w.followedBy server) =
      (receive throws how w).map fun (r, w) => (r, w.followedBy server) := by
  cases how with
  | ehlo => exact receiveEhloLoop_followedBy _ _ w server
  | code =>
    rw [receive, receive, receiveCode, receiveCode, receiveLine_followedBy, Option.map_map,
      Option.map_map]
    rfl
  | message =>
    rw [receive, receive, receiveMessage, receiveMessage, receiveLine_followedBy,
      Option.map_map, Option.map_map]
    rfl

theorem exchange_followedBy {how : Receive} {w : Wire} (h : w.server ≠ [])
    (server : List (List (List UInt8))) :
    exchange throws true how (w.followedBy server) =
      (exchange throws true how w).map fun (r, w) => (r, w.followedBy server) := by
  have hanswer : (w.followedBy server).answer = w.answer.followedBy server := by
    obtain ⟨answer, rest, hcons⟩ := List.exists_cons_of_ne_nil h
    simp [Wire.answer, Wire.followedBy, hcons]
  rw [exchange, exchange, if_pos rfl, if_pos rfl, hanswer, receive_followedBy]

theorem exchange_server {how : Receive} {w v : Wire} {r : Received}
    (h : exchange throws true how w = some (r, v)) : v.server = w.server.tail := by
  have hreads := receive_stream throws how w.answer
  rw [exchange, if_pos rfl] at h
  rw [h] at hreads
  rcases hin : receiveIn throws how w.answer.stream with _ | ⟨r', rest⟩
  · rw [hin] at hreads
    cases hreads
  · rw [hin] at hreads
    obtain ⟨buffer, inbound, heq, -⟩ := hreads
    obtain rfl := (Prod.ext_iff.mp (Option.some.inj heq)).2
    rfl

theorem negotiate_eq_some {f : Flags} {w : Wire} {g : Flags} {v : Wire} :
    negotiate throws f w = some (g, v) ↔ f.isOpen = true ∧ ∃ r u r' u',
      (exchange throws true .ehlo w = some (r, u) ∧
        ¬ (r.thrown = true ∨ f.useStarttls r.texts = false)) ∧
      (exchange throws true .code u = some (r', u') ∧
        ¬ (r'.thrown = true ∨ r'.code = 0 ∨ r'.code ≥ 400 ∨ u'.handshake.1 = false)) ∧
      { f.noteAll r.texts with enableTls := true } = g ∧ u'.handshake.2 = v := by
  constructor
  · intro h
    rw [negotiate] at h
    split at h
    · refine ⟨‹_›, ?_⟩
      split at h
      · cases h
      · split at h
        · cases h
        · split at h
          · cases h
          · split at h
            · cases h
            · obtain ⟨hg, hv⟩ := Prod.ext_iff.mp (Option.some.inj h)
              exact ⟨_, _, _, _, ⟨‹_›, ‹_›⟩, ⟨‹_›, ‹_›⟩, hg, hv⟩
    · cases h
  · rintro ⟨hopen, r, u, r', u', ⟨he, hr⟩, ⟨hc, hr'⟩, rfl, rfl⟩
    simp only [negotiate, if_pos hopen, he, if_neg hr, hc, if_neg hr']

theorem negotiate_followedBy {f : Flags} {w : Wire} {g : Flags} {v : Wire}
    (h : negotiate throws f w = some (g, v)) (hlen : w.server.length = 2)
    (server : List (List (List UInt8))) :
    negotiate throws f (w.followedBy server) = some (g, v.followedBy server) ∧
      v.server = [] ∧ v.inbound = [] := by
  obtain ⟨hopen, r, u, r', u', ⟨he, hr⟩, ⟨hc, hr'⟩, rfl, rfl⟩ := negotiate_eq_some.mp h
  have hu : u.server.length = 1 := by rw [exchange_server he, List.length_tail, hlen]
  have hu' : u'.server = [] := by
    rw [← List.length_eq_zero_iff, exchange_server hc, List.length_tail, hu]
  refine ⟨negotiate_eq_some.mpr ⟨hopen, r, u.followedBy server, r', u'.followedBy server, ?_⟩,
    hu', rfl⟩
  have hne : w.server ≠ [] := List.ne_nil_of_length_pos (by omega)
  have hne' : u.server ≠ [] := List.ne_nil_of_length_pos (by omega)
  rw [exchange_followedBy hne, he, exchange_followedBy hne', hc]
  exact ⟨⟨rfl, hr⟩, ⟨rfl, hr'⟩, rfl, rfl⟩

theorem ehlo_of_negotiate (cfg : Config) {f : Flags} (hostname : List UInt8) {w : Wire} {g : Flags}
    {v : Wire} (h : negotiate throws f w = some (g, v)) :
    let o := Prog.run throws (secondEhlo g (hello cfg (octets "EHLO ") hostname)) v
    ∃ first second, Prog.run throws (ehlo cfg throws f hostname) w =
      { o with log := first :: second :: o.log } := by
  obtain ⟨hopen, r, u, r', u', ⟨he, hr⟩, ⟨hc, hr'⟩, rfl, rfl⟩ := negotiate_eq_some.mp h
  obtain ⟨hthrown', hcode, hlt, hok⟩ : r'.thrown = false ∧ r'.code ≠ 0 ∧ ¬ r'.code ≥ 400 ∧
      u'.handshake.1 = true := by simpa only [not_or, Bool.not_eq_true, Bool.not_eq_false] using hr'
  have hthrown : r.thrown = false :=
    Bool.eq_false_iff.mpr fun ht => hr (Or.inl ht)
  have hstop : ¬ (r'.thrown = true ∨ r'.code = 0) := by simp [hthrown', hcode]
  refine ⟨(hello cfg (octets "EHLO ") hostname, r.code), (octets "STARTTLS\r\n", r'.code), ?_⟩
  rw [ehlo, if_pos hopen, run_exchange he hthrown, if_neg hr, startTls,
    run_exchange hc hthrown', if_neg hstop, Prog.run, hok, if_pos rfl, if_neg hlt]

theorem afterTls_session (cfg : Config) {f : Flags} (hostname : List UInt8) {w : Wire} {g : Flags}
    {v : Wire} (h : negotiate throws f w = some (g, v)) (ops : List Op) :
    afterTls (session cfg throws (.ehlo hostname :: ops) f w) =
      seenFrom cfg throws ops
        (Prog.run throws (secondEhlo g (hello cfg (octets "EHLO ") hostname)) v) := by
  obtain ⟨first, second, hrun⟩ := ehlo_of_negotiate cfg hostname h
  rw [session, Op.prog, hrun]
  obtain ⟨log, _ | ⟨res, f', v'⟩⟩ :=
    Prog.run throws (secondEhlo g (hello cfg (octets "EHLO ") hostname)) v
  · rfl
  · rfl

theorem secondEhlo_run (g : Flags) (send : List UInt8) (w : Wire) :
    match receiveIn throws .ehlo w.answer.stream with
    | none => Prog.run throws (secondEhlo g send) w = ⟨[], none⟩
    | some (r, rest) => ∃ v, v.stream = rest ∧ v.server = w.server.tail ∧
        Prog.run throws (secondEhlo g send) w =
          ⟨if r.thrown then [] else [(send, r.code)], some (r.result, g.noteAll r.texts, v)⟩ := by
  have hreads := receive_stream throws .ehlo w.answer
  rcases hin : receiveIn throws .ehlo w.answer.stream with _ | ⟨r, rest⟩
  · rw [hin] at hreads
    have hnone : exchange throws true .ehlo w = none := hreads
    simp only [secondEhlo, Prog.run, hnone]
  · rw [hin] at hreads
    obtain ⟨buffer, inbound, hreceive, hrest⟩ := hreads
    have hsome : exchange throws true .ehlo w =
        some (r, { w.answer with recvbuf := buffer, inbound := inbound }) := hreceive
    refine ⟨{ w.answer with recvbuf := buffer, inbound := inbound }, hrest, rfl, ?_⟩
    simp only [secondEhlo, Prog.run, hsome]
    split <;> rfl

/-- With the same flags and the same texts left over, the second EHLO ends the same. -/
theorem secondEhlo_related {g₁ g₂ : Flags} {left₁ left₂ : List UInt8}
    (hclear : SameClear throws g₁ g₂ left₁ left₂) (hrest : g₁.rest = g₂.rest)
    (htls : g₂.enableTls = true) {w₁ w₂ : Wire} (h₁ : w₁.stream = left₁) (h₂ : w₂.stream = left₂)
    (hserver : w₁.server.map List.flatten = w₂.server.map List.flatten) (send : List UInt8) :
    let o₁ := Prog.run throws (secondEhlo g₁ send) w₁
    let o₂ := Prog.run throws (secondEhlo g₂ send) w₂
    o₁.log = o₂.log ∧
      Option.Rel (fun a b => a.1 = b.1 ∧ a.2.1 = b.2.1 ∧ Related a.2.1 a.2.2 b.2.2)
        o₁.ended o₂.ended := by
  intro o₁ o₂
  obtain ⟨texts₁, texts₂, hpass₁, hpass₂, hmech⟩ := hclear
  have hflags : g₁.noteAll texts₁ = g₂.noteAll texts₂ := by
    refine flags_ext ?_ hmech
    rw [noteAll_rest, noteAll_rest, hrest]
  have hrun₁ := @secondEhlo_run throws g₁ send w₁
  have hrun₂ := @secondEhlo_run throws g₂ send w₂
  rw [answer_stream, h₁, hserver, receiveIn_absorbed hpass₁] at hrun₁
  rw [answer_stream, h₂, receiveIn_absorbed hpass₂] at hrun₂
  rcases hin : receiveIn throws .ehlo ((w₂.server.map List.flatten).headD []) with _ | ⟨r, rest⟩ <;>
    rw [hin] at hrun₁ hrun₂
  · have ho₁ : o₁ = ⟨[], none⟩ := hrun₁
    have ho₂ : o₂ = ⟨[], none⟩ := hrun₂
    rw [ho₁, ho₂]
    exact ⟨rfl, .none⟩
  · obtain ⟨u₁, hu₁, hs₁, hrun₁⟩ := hrun₁
    obtain ⟨u₂, hu₂, hs₂, hrun₂⟩ := hrun₂
    have hall : g₁.noteAll (texts₁ ++ r.texts) = g₂.noteAll (texts₂ ++ r.texts) := by
      have happ (g : Flags) (texts : List (List UInt8)) :
          g.noteAll (texts ++ r.texts) = (g.noteAll texts).noteAll r.texts := List.foldl_append
      rw [happ, happ, hflags]
    have htail : u₁.server.map List.flatten = u₂.server.map List.flatten := by
      rw [hs₁, hs₂, List.map_tail, hserver, List.map_tail]
    simp only [o₁, o₂, hrun₁, hrun₂]
    refine ⟨trivial, .some ⟨rfl, hall, ?_, htail, fun _ => hu₁.trans hu₂.symm⟩⟩
    exact (noteAll_enableTls _ _).trans ((congrArg Flags.enableTls hrest).trans htls)

end Handshake

section Probes

variable {throws : Bool}

/-- A reply of one line without a text. -/
def probe (digit : Char) : List UInt8 := chr digit :: octets "00 \r\n"

theorem ehloIn_nil (fuel : Nat) (texts : List (List UInt8)) : ehloIn throws fuel texts [] = none := by
  cases fuel <;> rfl

/-- The reply is over with the first line, or another one follows and there is more. -/
theorem receiveIn_first {s : List UInt8} {r : Received} {rest : List UInt8}
    (h : receiveIn throws .ehlo s = some (r, rest)) (hr : r.thrown = false) :
    (∃ n, findCrlf s = some n ∧ (parseResponseCode s n).1 = r.code) ∨
      ∃ text rest', Continues throws s text rest' ∧ rest' ≠ [] := by
  rw [receiveIn, ehloIn] at h
  rcases hfind : findCrlf s with _ | n
  · rw [lineIn, hfind] at h
    cases h
  · have hline : lineIn throws s = some ((parseResponseCode s n).1, (parseResponseCode s n).2,
        textOf s n, if throws && (parseResponseCode s n).2 then s else s.drop n) := by
      rw [lineIn, hfind, Option.map_some]
    rw [hline] at h
    simp only at h
    split at h
    · cases h
      cases hr
    · have hthrow : (throws && (parseResponseCode s n).2) = false := Bool.eq_false_iff.mpr ‹_›
      split at h
      · refine .inr ⟨_, _, ⟨_, _, hline, hthrow, ‹_ ∧ _›⟩, fun hnil => ?_⟩
        rw [hthrow, if_neg Bool.false_ne_true] at hnil
        rw [hnil, ehloIn_nil] at h
        cases h
      · cases h
        exact .inl ⟨n, rfl, rfl⟩

/-- A line that cannot be gone on with gives its code to the reply it is read in front of. -/
theorem code_of_stuck {s : List UInt8} (hstuck : ∀ text rest, ¬ Continues throws s text rest)
    {digit : Char} (hdigit : digit = '2' ∨ digit = '3') {r : Received} {rest : List UInt8}
    (h : receiveIn throws .ehlo (s ++ probe digit) = some (r, rest)) (hr : r.thrown = false) :
    (parseResponseCode (s ++ probe digit) ((findCrlf s).getD (s.length + 6))).1 = r.code := by
  have hne : chr digit ≠ chr '\n' := by rcases hdigit with rfl | rfl <;> decide
  have hprobe : findCrlf (probe digit) = some 6 := by rcases hdigit with rfl | rfl <;> decide
  rcases hfind : findCrlf s with _ | n
  · have hall : findCrlf (s ++ probe digit) = some (s.length + 6) := by
      rw [probe, findCrlf_append_of_none hfind hne, ← probe, hprobe, Option.map_some,
        Nat.add_comm]
    rcases receiveIn_first h hr with ⟨m, hm, hcode⟩ | ⟨text, rest', hcont, hnil⟩
    · obtain rfl := Option.some.inj (hall.symm.trans hm)
      exact hcode
    · obtain ⟨res, error, hline, hthrow, -⟩ := hcont
      rw [lineIn, hall] at hline
      simp only [Option.map_some, Option.some.injEq, Prod.mk.injEq] at hline
      obtain ⟨rfl, rfl, -, rfl⟩ := hline
      refine absurd ?_ hnil
      rw [hthrow, if_neg Bool.false_ne_true, List.drop_eq_nil_iff, List.length_append]
      simp [probe, octets]
  · rcases receiveIn_first h hr with ⟨m, hm, hcode⟩ | ⟨text, rest', hcont, -⟩
    · obtain rfl := Option.some.inj ((findCrlf_append hfind _).symm.trans hm)
      exact hcode
    · obtain ⟨res, error, hline, hthrow, hres, hdash⟩ := hcont
      have hs : lineIn throws s = some ((parseResponseCode s n).1, (parseResponseCode s n).2,
          textOf s n, if throws && (parseResponseCode s n).2 then s else s.drop n) := by
        rw [lineIn, hfind, Option.map_some]
      have heq := Option.some.inj ((lineIn_append hs (probe digit)).symm.trans hline)
      simp only [Prod.mk.injEq] at heq
      obtain ⟨rfl, rfl, -, -⟩ := heq
      have hsix := six_le_of_code hres
      have hle := (findCrlf_le hfind).1
      rw [List.getElem?_append_left (by omega)] at hdash
      exact absurd ⟨_, _, hs, hthrow, hres, hdash⟩ (hstuck _ _)

theorem code_of_digits (a b c : UInt8) (s : List UInt8) (n : Nat) :
    (parseResponseCode (a :: b :: c :: s) n).1 = 0 ∨ (parseResponseCode (a :: b :: c :: s) n).1 =
      ((a.toNat - 48) * 10 + (b.toNat - 48)) * 10 + (c.toNat - 48) := by
  rw [parseResponseCode]
  split
  · exact .inr rfl
  · exact .inl rfl

/-- Octets that are left over and cannot be gone on with take the place of a reply. -/
theorem nil_of_stuck {s : List UInt8} (hstuck : ∀ text rest, ¬ Continues throws s text rest)
    {r₂ r₃ : Received} {rest₂ rest₃ : List UInt8}
    (h₂ : receiveIn throws .ehlo (s ++ probe '2') = some (r₂, rest₂)) (hr₂ : r₂.thrown = false)
    (hc₂ : r₂.code = 200)
    (h₃ : receiveIn throws .ehlo (s ++ probe '3') = some (r₃, rest₃)) (hr₃ : r₃.thrown = false)
    (hc₃ : r₃.code = 300) : s = [] := by
  have hcode₂ := (code_of_stuck hstuck (.inl rfl) h₂ hr₂).trans hc₂
  have hcode₃ := (code_of_stuck hstuck (.inr rfl) h₃ hr₃).trans hc₃
  rcases hfind : findCrlf s with _ | n
  · rw [hfind] at hcode₂ hcode₃
    match s with
    | [] => rfl
    | [a] =>
      have hdigits := code_of_digits a (chr '2') (chr '0') (octets "0 \r\n") 7
      have hsum : ((a.toNat - 48) * 10 + 2) * 10 + 0 = 200 ∨ 0 = 200 :=
        hdigits.symm.imp (fun h => h.symm.trans hcode₂) (fun h => h.symm.trans hcode₂)
      omega
    | [a, b] =>
      have hdigits := code_of_digits a b (chr '2') (octets "00 \r\n") 8
      have hsum : ((a.toNat - 48) * 10 + (b.toNat - 48)) * 10 + 2 = 200 ∨ 0 = 200 :=
        hdigits.symm.imp (fun h => h.symm.trans hcode₂) (fun h => h.symm.trans hcode₂)
      omega
    | a :: b :: c :: s =>
      exact absurd (hcode₂.symm.trans hcode₃) (by decide)
  · rw [hfind, Option.getD_some, parseResponseCode_append (findCrlf_le hfind).1] at hcode₂ hcode₃
    exact absurd (hcode₂.symm.trans hcode₃) (by decide)

/-- A run that looks like one that gets only a probe has read a reply with the code of it. -/
theorem receiveIn_of_seen {g : Flags} {send : List UInt8} {w : Wire} {code : Nat} {res : Result}
    {mechanisms : Bool × Bool × Bool}
    (h : (Prog.run throws (secondEhlo g send) w).seen = ([(send, code)], some (res, mechanisms))) :
    ∃ r rest, receiveIn throws .ehlo w.answer.stream = some (r, rest) ∧ r.thrown = false ∧
      r.code = code ∧ (g.noteAll r.texts).mechanisms = mechanisms := by
  have hrun := @secondEhlo_run throws g send w
  rcases hin : receiveIn throws .ehlo w.answer.stream with _ | ⟨r, rest⟩ <;> rw [hin] at hrun
  · rw [show Prog.run throws (secondEhlo g send) w = ⟨[], none⟩ from hrun] at h
    cases h
  · obtain ⟨v, -, -, hrun⟩ := hrun
    rw [hrun, Outcome.seen] at h
    obtain ⟨hlog, hended⟩ := Prod.ext_iff.mp h
    have hthrown : r.thrown = false := by
      cases hr : r.thrown with
      | false => rfl
      | true => simp [hr] at hlog
    refine ⟨r, rest, rfl, hthrown, ?_, ?_⟩
    · simpa [hthrown] using hlog
    · simpa using (Prod.ext_iff.mp (Option.some.inj hended)).2

theorem seen_probe (g : Flags) (send : List UInt8) {w : Wire} {digit : Char} {code : Nat}
    (hdigit : digit = '2' ∧ code = 200 ∨ digit = '3' ∧ code = 300)
    (h : w.answer.stream = probe digit) :
    (Prog.run throws (secondEhlo g send) w).seen =
      ([(send, code)], some (.code code, g.mechanisms)) := by
  have hread : receiveIn throws .ehlo (probe digit) =
      some (⟨code, [[]], false, false⟩, []) := by
    rcases hdigit with ⟨rfl, rfl⟩ | ⟨rfl, rfl⟩ <;> cases throws <;> rfl
  have hrun := @secondEhlo_run throws g send w
  rw [h, hread] at hrun
  obtain ⟨v, -, -, hrun⟩ := hrun
  rw [hrun]
  rfl

end Probes

section Negotiated

variable {throws : Bool} {f g : Flags} {w v : Wire}

theorem negotiate_flags (h : negotiate throws f w = some (g, v)) :
    g.enableTls = true ∧ g.rest = { f with enableTls := true }.rest := by
  obtain ⟨-, r, -, -, -, -, -, rfl, -⟩ := negotiate_eq_some.mp h
  exact ⟨rfl, congrArg (fun g : Flags => { g with enableTls := true }) (noteAll_rest f r.texts)⟩

theorem negotiate_stream (hlen : w.server.length = 2) (h : negotiate throws f w = some (g, v))
    (tls : List (List (List UInt8))) :
    (v.followedBy tls).stream = v.recvbuf ∧ (v.followedBy tls).server = tls := by
  obtain ⟨-, hserver, hinbound⟩ := negotiate_followedBy h hlen tls
  exact ⟨by simp [Wire.stream, Wire.followedBy, hinbound], by simp [Wire.followedBy, hserver]⟩

end Negotiated

/-- Where what is left over and what was announced in clear text is the same, everything is the
same after the handshake, and where one run has nothing left over, only then. -/
theorem starttls_isolated (cfg : Config) {throws : Bool} {f : Flags} (hostname : List UInt8)
    {w₁ w₂ : Wire} {g₁ g₂ : Flags} {v₁ v₂ : Wire}
    (hlen₁ : w₁.server.length = 2) (h₁ : negotiate throws f w₁ = some (g₁, v₁))
    (hlen₂ : w₂.server.length = 2) (h₂ : negotiate throws f w₂ = some (g₂, v₂)) :
    (SameClear throws g₁ g₂ v₁.recvbuf v₂.recvbuf → Isolated cfg throws f hostname w₁ w₂) ∧
      (v₂.recvbuf = [] → Isolated cfg throws f hostname w₁ w₂ →
        SameClear throws g₁ g₂ v₁.recvbuf v₂.recvbuf) := by
  constructor
  · intro hclear tls₁ tls₂ htls ops
    rw [afterTls_session cfg hostname (negotiate_followedBy h₁ hlen₁ tls₁).1,
      afterTls_session cfg hostname (negotiate_followedBy h₂ hlen₂ tls₂).1]
    have hserver : (v₁.followedBy tls₁).server.map List.flatten =
        (v₂.followedBy tls₂).server.map List.flatten := by
      rw [(negotiate_stream hlen₁ h₁ tls₁).2, (negotiate_stream hlen₂ h₂ tls₂).2, htls]
    have hrest : g₁.rest = g₂.rest := (negotiate_flags h₁).2.trans (negotiate_flags h₂).2.symm
    obtain ⟨hlog, hended⟩ := secondEhlo_related hclear hrest (negotiate_flags h₂).1
      (negotiate_stream hlen₁ h₁ tls₁).1 (negotiate_stream hlen₂ h₂ tls₂).1 hserver
      (hello cfg (octets "EHLO ") hostname)
    exact seenFrom_related cfg throws (session_related cfg throws ops) hlog hended
  · intro hclean hiso
    obtain ⟨texts, left, hpass, hstuck⟩ := @exists_passes throws v₁.recvbuf
    have hprobe {digit : Char} {code : Nat}
        (hdigit : digit = '2' ∧ code = 200 ∨ digit = '3' ∧ code = 300) :
        ∃ r rest, receiveIn throws .ehlo (left ++ probe digit) = some (r, rest) ∧
          r.thrown = false ∧ r.code = code ∧
          (g₁.noteAll (texts ++ r.texts)).mechanisms = g₂.mechanisms := by
      have hanswer {w : Wire} {g : Flags} {v : Wire} (hlen : w.server.length = 2)
          (h : negotiate throws f w = some (g, v)) :
          (v.followedBy [[probe digit]]).answer.stream = v.recvbuf ++ probe digit := by
        rw [answer_stream, (negotiate_stream hlen h _).1, (negotiate_stream hlen h _).2]
        simp
      have hsame := hiso [[probe digit]] [[probe digit]] rfl []
      rw [afterTls_session cfg hostname (negotiate_followedBy h₁ hlen₁ _).1,
        afterTls_session cfg hostname (negotiate_followedBy h₂ hlen₂ _).1] at hsame
      have hseen := (List.cons.inj hsame).1
      rw [seen_probe g₂ _ hdigit (by rw [hanswer hlen₂ h₂, hclean, List.nil_append])] at hseen
      obtain ⟨r, rest, hread, hthrown, hcode, hmech⟩ := receiveIn_of_seen hseen
      rw [hanswer hlen₁ h₁, receiveIn_passes (hpass.append _)] at hread
      obtain ⟨⟨r', rest'⟩, hread', heq⟩ := Option.map_eq_some_iff.mp hread
      obtain ⟨rfl, rfl⟩ := Prod.ext_iff.mp heq
      exact ⟨r', rest', hread', hthrown, hcode, hmech⟩
    obtain ⟨r₂, rest₂, hread₂, hthrown₂, hcode₂, hmech⟩ := hprobe (.inl ⟨rfl, rfl⟩)
    obtain ⟨r₃, rest₃, hread₃, hthrown₃, hcode₃, -⟩ := hprobe (.inr ⟨rfl, rfl⟩)
    obtain rfl := nil_of_stuck hstuck hread₂ hthrown₂ hcode₂ hread₃ hthrown₃ hcode₃
    have htexts : r₂.texts = [[]] := by
      have hread : receiveIn throws .ehlo (probe '2') = some (⟨200, [[]], false, false⟩, []) := by
        cases throws <;> rfl
      rw [List.nil_append, hread] at hread₂
      exact congrArg Received.texts (Prod.ext_iff.mp (Option.some.inj hread₂)).1.symm
    have hempty : g₁.noteAll (texts ++ [[]]) = g₁.noteAll texts := List.foldl_append
    rw [htexts, hempty] at hmech
    exact ⟨texts, [], hpass, hclean, hmech⟩

section Runs

def hereConfig : Config := ⟨octets "here", fun _ _ => []⟩

def connected : Flags := { Flags.make 0 with isOpen := true }

/-- The replies to EHLO and to STARTTLS in clear text. -/
def clearText (first second : String) : Wire := ⟨[], [], [[octets first], [octets second]], true⟩

def cleanRun : Wire := clearText "250-mx\r\n250 STARTTLS\r\n" "220 go\r\n"

def continuedRun : Wire := clearText "250 STARTTLS\r\n" "220 go\r\n250-mx\r\n"

def injectedRun : Wire := clearText "250 STARTTLS\r\n" "220 go\r\n250 AUTH PLAIN\r\n"

def announcedRun : Wire := clearText "250-STARTTLS\r\n250 AUTH PLAIN\r\n" "220 go\r\n"

theorem starttls_isolated_of_continued :
    Isolated hereConfig false connected [] continuedRun cleanRun :=
  (starttls_isolated hereConfig [] rfl
    (show negotiate false connected continuedRun = some ({ connected with enableTls := true },
      ⟨octets "250-mx\r\n", [], [], true⟩) by decide) rfl
    (show negotiate false connected cleanRun = some ({ connected with enableTls := true },
      ⟨[], [], [], true⟩) by decide)).1
    ⟨[octets "mx"], [], ⟨[], ⟨250, false, by decide⟩, rfl⟩, rfl, rfl⟩

/-- A reply in the segment of the one to STARTTLS answers the second EHLO, and a mechanism that
is announced in clear text stays enabled. -/
theorem clear_text_survives_handshake :
    ((negotiate false connected injectedRun).isSome ∧
      (negotiate false connected announcedRun).isSome ∧
      (negotiate false connected cleanRun).isSome) ∧
      ¬ Isolated hereConfig false connected [] injectedRun cleanRun ∧
      ¬ Isolated hereConfig false connected [] announcedRun cleanRun := by
  refine ⟨by decide, fun h => ?_, fun h => ?_⟩
  · exact absurd (h [[octets "550 no\r\n"]] [[octets "550 no\r\n"]] rfl []) (by decide)
  · exact absurd (h [[octets "250 ok\r\n"]] [[octets "250 ok\r\n"]] rfl []) (by decide)

end Runs

end Smtp

end Asio

end Acqua

import Acqua.Asio.SmtpClient
import Acqua.Email.DotLines

/-! `send_data` of `smtp/client.ipp`, for a stream that reads from an `email_generator`. -/

namespace Acqua

namespace Asio

namespace Smtp

/-- `send_data`: what is sent at a time of what `is` holds. -/
def sendData (is : List UInt8) : List (List UInt8) :=
  if is = [] then [] else is.take 4096 :: sendData (is.drop 4096)
termination_by is.length
decreasing_by
  have hpos := List.length_pos_of_ne_nil ‹_›
  rw [List.length_drop]
  omega

theorem flatten_sendData (is : List UInt8) : (sendData is).flatten = is := by
  induction is using sendData.induct with
  | case1 => rw [sendData, if_pos rfl, List.flatten_nil]
  | case2 is hne ih => rw [sendData, if_neg hne, List.flatten_cons, ih, List.take_append_drop]

open Email

section Data

variable {L : Email.Locale} {fresh : Message → Nat → UInt8} {email : Message}

theorem onlyAtEnd_of_prefix {out text : List UInt8} (hstart : out <+: text)
    (h : OnlyAtEnd text) : OnlyAtEnd out := by
  rintro pre post rfl
  obtain ⟨rest, htext⟩ := hstart
  have hnil := h pre (post ++ rest) (by rw [← htext, List.append_assoc _ post])
  exact (List.append_eq_nil_iff.mp hnil).1

theorem prefix_of_readUntilEof {text : List UInt8} (htext : email.generated L fresh = some text)
    {sizes : List Nat} {content : List UInt8}
    (h : email.readUntilEof L fresh sizes = some content) : content <+: text :=
  EmailGenerator.readUntilEof_prefix (GeneratorImpl.bursts_endsWith L fresh)
    (s := ⟨GeneratorImpl.init email, []⟩) rfl
    (show (GeneratorImpl.init email).TopLevel from rfl) htext h

theorem readUntilEof_all {text : List UInt8} (htext : email.generated L fresh = some text)
    {size : Nat} (hsize : text.length < size) :
    email.readUntilEof L fresh [size, 1] = some text := by
  have hread := EmailGenerator.readUntilEof_of_last (GeneratorImpl.bursts_endsWith L fresh)
    (s := ⟨GeneratorImpl.init email, []⟩) rfl
    (show (GeneratorImpl.init email).TopLevel from rfl) htext (Nat.zero_lt_of_lt hsize)
    (by rw [List.nil_append]; omega) 1 []
  rwa [List.nil_append, List.take_of_length_le hsize.le] at hread

/-- However the message is read, the data ends where it should, exactly if no line of the
payload is a dot. -/
theorem sendData_onlyAtEnd_iff (L : Email.Locale) (fresh : Message → Nat → UInt8) (email : Message)
    (hsingle : email.subparts = []) {text : List UInt8}
    (htext : email.generated L fresh = some text) :
    (∀ sizes content, (∀ size ∈ sizes, 0 < size) →
      email.readUntilEof L fresh sizes = some content →
        OnlyAtEnd (sendData content).flatten) ↔ email.Dotless L fresh := by
  rw [← onlyAtEnd_generated_iff hsingle htext]
  constructor
  · intro h
    have hsent := h _ _ (by simp) (readUntilEof_all htext (Nat.lt_succ_self text.length))
    rwa [flatten_sendData] at hsent
  · intro h sizes content _ hcontent
    rw [flatten_sendData]
    exact onlyAtEnd_of_prefix (prefix_of_readUntilEof htext hcontent) h

end Data

theorem generated_plain (L : Email.Locale) (fresh : Message → Nat → UInt8) (payload : List UInt8) :
    Message.generated L fresh ⟨[], payload, []⟩ =
      some (crlf ++ payload ++ GeneratorImpl.terminator) := by
  rw [generated_eq]
  rfl

theorem sendData_onlyAtEnd_iff_of_dots :
    (∀ sizes content, (∀ size ∈ sizes, 0 < size) →
      Message.readUntilEof utf8Locale (fun _ _ => 0) ⟨[], octets "..\r\n", []⟩ sizes =
        some content → OnlyAtEnd (sendData content).flatten) ↔
      Message.Dotless utf8Locale (fun _ _ => 0) ⟨[], octets "..\r\n", []⟩ :=
  sendData_onlyAtEnd_iff utf8Locale (fun _ _ => 0) ⟨[], octets "..\r\n", []⟩ rfl
    (generated_plain _ _ _)

/-- The data ends at the second line, and the server takes the third for a command. -/
theorem not_sendData_onlyAtEnd_of_dot :
    ∃ content, Message.readUntilEof utf8Locale (fun _ _ => 0)
        ⟨[], octets "a\r\n.\r\nQUIT", []⟩ [4096, 1] = some content ∧
      (sendData content).flatten = octets "\r\na\r\n.\r\nQUIT\r\n.\r\n" ∧
        ¬ OnlyAtEnd (sendData content).flatten := by
  have hgenerated := generated_plain utf8Locale (fun _ _ => 0) (octets "a\r\n.\r\nQUIT")
  refine ⟨_, readUntilEof_all hgenerated (by decide), ?_, ?_⟩
  · rw [flatten_sendData]
    decide
  · rw [flatten_sendData]
    intro h
    exact absurd (h (octets "\r\na") (octets "QUIT\r\n.\r\n") (by decide))
      (by decide)

end Smtp

end Asio

end Acqua

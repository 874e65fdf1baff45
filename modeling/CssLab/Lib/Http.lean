import CssLab.Lib.Block

namespace CssLab.Http

open Block

/-- The bytes of a text in ASCII. -/
def text (string : String) : List UInt8 := string.toList.map fun char => UInt8.ofNat char.toNat

/-- A number as `%ld` prints it. -/
def decimal (number : Nat) : List UInt8 := text number.repr

def crlf : List UInt8 := [13, 10]

/-- Bytes that end no line. -/
abbrev IsLine (bytes : List UInt8) : Prop := 13 ∉ bytes ∧ 10 ∉ bytes

def contentLength : List UInt8 := text "Content-Length"

/-- A response whose one `Content-Length` says how long its body is. -/
structure Response where
  code : Nat
  reason : List UInt8
  fields : List (List UInt8 × List UInt8)
  body : List UInt8
  digits : 100 ≤ code ∧ code < 600
  line : IsLine reason
  lines : ∀ field ∈ fields, IsLine field.1 ∧ 58 ∉ field.1 ∧ IsLine field.2
  framed : (fields.filter fun field => strcasecmp field.1 contentLength).map Prod.snd =
    [decimal body.length]

def Response.statusLine (response : Response) : List UInt8 :=
  text "HTTP/1.1 " ++ decimal response.code ++ text " " ++ response.reason ++ crlf

/-- The response as it is sent. -/
def Response.render (response : Response) : List UInt8 :=
  response.statusLine ++
    response.fields.flatMap (fun field => field.1 ++ text ": " ++ field.2 ++ crlf) ++
    crlf ++ response.body

theorem text_append (front back : String) : text (front ++ back) = text front ++ text back := by
  rw [text, String.toList_append, List.map_append]
  rfl

theorem decimal_eq (number : Nat) :
    decimal number = (Nat.toDigits 10 number).map fun digit => UInt8.ofNat digit.toNat := by
  rw [decimal, text, Nat.toList_repr]

/-- A decimal digit is none of the bytes that a header ends at. -/
theorem decimal_digits (number : Nat) : ∀ byte ∈ decimal number, 48 ≤ byte := by
  intro byte member
  rw [decimal_eq, List.mem_map] at member
  obtain ⟨digit, member, rfl⟩ := member
  have isDigit := Nat.isDigit_of_mem_toDigits (by decide) (by decide) member
  have bounds : 48 ≤ digit.toNat ∧ digit.toNat ≤ 57 := by
    simpa [Char.isDigit, UInt32.le_iff_toNat_le] using isDigit
  rw [UInt8.le_iff_toNat_le, UInt8.toNat_ofNat']
  have zero : (48 : UInt8).toNat = 48 := rfl
  omega

theorem isLine_decimal (number : Nat) : IsLine (decimal number) :=
  ⟨fun member => absurd (decimal_digits number 13 member) (by decide),
    fun member => absurd (decimal_digits number 10 member) (by decide)⟩

theorem length_decimal_le (number : Nat) (small : number < 10000) :
    (decimal number).length ≤ 4 := by
  rw [decimal_eq, List.length_map]
  exact (Nat.length_toDigits_le_iff (by decide) (by decide)).mpr small

theorem Response.render_ne_nil (response : Response) : response.render ≠ [] := by
  intro empty
  have := congrArg List.length empty
  simp [render, crlf] at this

/-- The response with these fields and the `Content-Length` of its body. -/
def Response.sized (code : Nat) (reason : List UInt8) (fields : List (List UInt8 × List UInt8))
    (body : List UInt8) (digits : 100 ≤ code ∧ code < 600) (line : IsLine reason)
    (lines : ∀ field ∈ fields, IsLine field.1 ∧ 58 ∉ field.1 ∧ IsLine field.2)
    (others : ∀ field ∈ fields, strcasecmp field.1 contentLength = false) : Response where
  code
  reason
  fields := fields ++ [(contentLength, decimal body.length)]
  body
  digits
  line
  lines := by
    intro field member
    rcases List.mem_append.mp member with other | last
    · exact lines field other
    · obtain rfl := List.mem_singleton.mp last
      have name : IsLine contentLength ∧ 58 ∉ contentLength := by decide
      exact ⟨name.1, name.2, isLine_decimal _⟩
  framed := by
    have none : fields.filter (fun field => strcasecmp field.1 contentLength) = [] :=
      List.filter_eq_nil_iff.mpr fun field member => by simp [others field member]
    have same : strcasecmp contentLength contentLength = true := by decide
    rw [List.filter_append, none]
    simp [same]

end CssLab.Http

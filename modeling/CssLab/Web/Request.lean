import CssLab.Lib.HttpReading
import CssLab.Web.Connection

namespace CssLab.Web

open Block Http Words

/-- The first two words of the request are shorter than the arrays they go to. -/
def TokensFit (request : List UInt8) : Prop :=
  ((words isspace request).getD 0 []).length < 16 ∧
    ((words isspace request).getD 1 []).length < 128

/-- The request asks for a file, in words that fit their arrays. -/
def Gets (request path : List UInt8) : Prop :=
  ∃ method rest, words isspace request = method :: path :: rest ∧ method.length < 16 ∧
    path.length < 128 ∧ strcasecmp method (text "GET")

/-- What `serve_client` writes before it closes the connection is one response. -/
def Answers (webRoot : List UInt8) (files : Files) (frame : Frame) (arrived : List UInt8)
    (fd : Nat) (response : Response) : Prop :=
  ∃ events, serveClient webRoot files frame (some arrived) fd = some events ∧
    life fd events = .closed response.render

def emptyFrame : Frame := ⟨.zero _, .zero _, .zero _, .zero _⟩

/-- One file with this content. -/
def site (content : List UInt8) : Files := fun path =>
  if path = text "/home/mywebsite/index.html" then some content else none

/-- Nothing is written outside the arrays exactly if the words fit. -/
theorem sscanf_isSome (request : List UInt8) (method : Block 16) (path : Block 128) :
    (sscanf request method path).isSome ↔ TokensFit request := by
  rw [sscanf_eq, TokensFit]
  match words isspace request with
  | [] => simp
  | [first] => simp [write_isSome]
  | first :: second :: _ =>
    rw [List.getD_cons_zero, List.getD_cons_succ, List.getD_cons_zero, ← write_isSome method]
    dsimp only
    cases method.write 0 (first ++ [0]) with
    | none => simp
    | some method => simp [write_isSome]

section Parsing

variable (webRoot : List UInt8) (files : Files) (frame : Frame)

theorem serveClient_unfit (unfit : ¬TokensFit (seen arrived)) (fd : Nat) :
    serveClient webRoot files frame (some arrived) fd = none := by
  rw [serveClient_some]
  unfold TokensFit at unfit
  match found : words isspace (seen arrived) with
  | [] => simp [found] at unfit
  | [method] =>
    rw [found] at unfit
    exact if_neg fun fits => unfit ⟨fits, Nat.zero_lt_succ _⟩
  | method :: path :: _ =>
    rw [found] at unfit
    exact if_neg unfit

/-- The parsing stays inside its arrays, and refuses what does not fit them, exactly if
the first word has at most 15 bytes and the second at most 127. -/
theorem parsing_inside_iff (arrived : List UInt8) (fd : Nat) :
    (sscanf (seen arrived) frame.method frame.path).isSome ∧
        (¬TokensFit (seen arrived) →
          ∃ response, Answers webRoot files frame arrived fd response ∧ 400 ≤ response.code) ↔
      ((words isspace (seen arrived)).getD 0 []).length ≤ 15 ∧
        ((words isspace (seen arrived)).getD 1 []).length ≤ 127 := by
  rw [sscanf_isSome]
  have numbers : TokensFit (seen arrived) ↔
      ((words isspace (seen arrived)).getD 0 []).length ≤ 15 ∧
        ((words isspace (seen arrived)).getD 1 []).length ≤ 127 :=
    and_congr Nat.lt_succ_iff Nat.lt_succ_iff
  rw [← numbers]
  exact ⟨And.left, fun fits => ⟨fits, fun unfit => absurd fits unfit⟩⟩

end Parsing

/-- A method of sixteen letters has no room for its zero, and no answer. -/
theorem method_overruns :
    ¬ ((sscanf (seen (text "ABCDEFGHIJKLMNOP /\r\n")) emptyFrame.method emptyFrame.path).isSome ∧
      (¬TokensFit (seen (text "ABCDEFGHIJKLMNOP /\r\n")) →
        ∃ response, Answers (text "/home/mywebsite") (site []) emptyFrame
          (text "ABCDEFGHIJKLMNOP /\r\n") 4 response ∧ 400 ≤ response.code)) := by
  have unfit : ¬TokensFit (seen (text "ABCDEFGHIJKLMNOP /\r\n")) := by
    intro fits
    exact absurd fits.1 (by decide)
  rintro ⟨-, refused⟩
  obtain ⟨response, ⟨events, ran, -⟩, -⟩ := refused unfit
  rw [serveClient_unfit _ _ _ unfit] at ran
  cases ran

section Connection

variable (webRoot : List UInt8) (files : Files) (frame : Frame)

theorem serveClient_gets (gets : Gets (seen arrived) path) (fd : Nat) :
    serveClient webRoot files frame (some arrived) fd =
      serveGet files frame (snprintf 256 (webRoot ++ path)) fd := by
  obtain ⟨method, rest, found, fits, fits', get⟩ := gets
  simp only [serveClient_some, found, if_pos (And.intro fits fits'), serveMethod, if_pos get]

/-- The body of the answer is what `strlen` finds of the file in `body`. -/
theorem answers_gets_iff (gets : Gets (seen arrived) path)
    (found : files (snprintf 256 (webRoot ++ path)) = some content) (fd : Nat)
    (response : Response) :
    Answers webRoot files frame arrived fd response ↔
      ∃ body, cstring (fread frame.body content).bytes = some body ∧ response = okAnswer body := by
  rw [Answers, serveClient_gets webRoot files frame gets]
  constructor
  · rintro ⟨events, ran, closed⟩
    cases string : cstring (fread frame.body content).bytes with
    | none =>
      rw [serveGet, found] at ran
      simp [string] at ran
    | some body =>
      rw [serveGet_some files frame found string] at ran
      cases ran
      refine ⟨body, rfl, Response.render_injective ?_⟩
      rw [render_ok]
      simpa [life, Connection.next] using closed.symm
  · rintro ⟨body, string, rfl⟩
    refine ⟨_, serveGet_some files frame found string fd, ?_⟩
    rw [render_ok]
    simp [life, Connection.next]

/-- `strlen` finds the file in the array exactly if no zero is in it and one is behind it. -/
theorem cstring_fread {size : Nat} (block : Block size) (content : List UInt8) :
    cstring (fread block content).bytes = some content ↔
      0 ∉ content ∧ block.bytes[content.length]? = some 0 := by
  have bytes : (fread block content).bytes =
      content.take size ++ block.bytes.drop content.length := rfl
  rw [cstring_eq_some]
  refine and_congr_right fun _ => ?_
  by_cases short : content.length < size
  · rw [bytes, List.take_of_length_le (Nat.le_of_lt short), List.prefix_append_right_inj,
      List.drop_eq_getElem_cons (by rw [block.length_bytes]; exact short),
      List.getElem?_eq_getElem (by rw [block.length_bytes]; exact short), List.cons_prefix_cons,
      Option.some.injEq]
    exact ⟨fun begins => begins.1.symm, fun zero => ⟨zero.symm, List.nil_prefix⟩⟩
  · refine iff_of_false ?_ ?_
    · intro begins
      have within := begins.length_le
      rw [(fread block content).length_bytes, List.length_append, List.length_singleton] at within
      omega
    · rw [List.getElem?_eq_none (by rw [block.length_bytes]; omega)]
      exact Option.some_ne_none 0 ∘ Eq.symm

/-- A file is served as it is exactly if no zero is in it, it is shorter than `body` and
the byte that `body` held behind it was zero. -/
theorem get_unchanged_iff (gets : Gets (seen arrived) path)
    (found : files (snprintf 256 (webRoot ++ path)) = some content) (fd : Nat) :
    (∃ response, Answers webRoot files frame arrived fd response ∧ response.code = 200 ∧
        response.body = content) ↔
      0 ∉ content ∧ frame.body.bytes[content.length]? = some 0 := by
  rw [← cstring_fread]
  simp only [answers_gets_iff webRoot files frame gets found]
  constructor
  · rintro ⟨response, ⟨body, string, rfl⟩, -, rfl⟩
    exact string
  · intro string
    exact ⟨okAnswer content, ⟨content, string, rfl⟩, rfl, rfl⟩

end Connection

def indexRequest : List UInt8 := text "GET /index.html HTTP/1.1\r\n\r\n"

theorem indexRequest_gets : Gets (seen indexRequest) (text "/index.html") :=
  ⟨text "GET", [text "HTTP/1.1"], rfl, by decide, by decide, by decide⟩

theorem get_unchanged_page :
    ∃ response, Answers (text "/home/mywebsite") (site (text "<p>hi</p>")) emptyFrame indexRequest
      4 response ∧ response.code = 200 ∧ response.body = text "<p>hi</p>" :=
  (get_unchanged_iff (text "/home/mywebsite") (site (text "<p>hi</p>")) emptyFrame
    indexRequest_gets rfl 4).mpr ⟨by decide, (get_zero ..).trans rfl⟩

/-- A file that starts with a zero is answered with nothing behind the header. -/
theorem zero_cuts_file :
    ¬ ∃ response, Answers (text "/home/mywebsite") (site [0, 1]) emptyFrame indexRequest 4
      response ∧ response.code = 200 ∧ response.body = [0, 1] := by
  rintro ⟨response, answers, -, same⟩
  have found : site [0, 1] (snprintf 256 (text "/home/mywebsite" ++ text "/index.html")) =
      some [0, 1] := rfl
  rw [answers_gets_iff _ _ _ indexRequest_gets found] at answers
  obtain ⟨body, string, rfl⟩ := answers
  cases same
  exact absurd (cstring_eq_some.mp string).1 (by decide)

end CssLab.Web

import CssLab.Web.Server

namespace CssLab.Web

open Block Http Words

/-- The life of a descriptor, with what was written to it. A use after it was closed
may hit another client's connection. -/
inductive Connection
  | opened (sent : List UInt8)
  | closed (sent : List UInt8)
  | misused
  deriving DecidableEq

def Connection.next (fd : Nat) : Connection → Event → Connection
  | .opened sent, .write other bytes =>
    if other = fd then .opened (sent ++ bytes) else .opened sent
  | .opened sent, .close other => if other = fd then .closed sent else .opened sent
  | .closed sent, .write other _ => if other = fd then .misused else .closed sent
  | .closed sent, .close other => if other = fd then .misused else .closed sent
  | connection, _ => connection

def life (fd : Nat) (events : List Event) : Connection :=
  events.foldl (Connection.next fd) (.opened [])

/-- The connection gets one response and is closed after it, for good. -/
def Served (fd : Nat) (events : List Event) : Prop :=
  ∃ response : Response, life fd events = .closed response.render

/-- What `serve_client` sees of the bytes that have arrived: as much as its array
holds, up to a zero. -/
def seen (arrived : List UInt8) : List UInt8 :=
  (arrived.take (bufSize - 1)).takeWhile (· ≠ 0)

/-- The words of the request fit their arrays and, where there are two, they ask for a
file that can be opened and in which, or after it in `body`, a zero comes in time, or
for neither GET nor DELETE. -/
def Answerable (webRoot : List UInt8) (files : Files) (frame : Frame) (request : List UInt8) :
    Prop :=
  match words isspace request with
  | [] => True
  | [method] => method.length < 16
  | method :: path :: _ => method.length < 16 ∧ path.length < 128 ∧
    if strcasecmp method (text "GET") then
      ∃ content, files (snprintf 256 (webRoot ++ path)) = some content ∧
        0 ∈ (fread frame.body content).bytes
    else strcasecmp method (text "DELETE") = false

theorem life_append (fd : Nat) (events : List Event) (event : Event) :
    life fd (events ++ [event]) = (life fd events).next fd event :=
  List.foldl_append

theorem not_served_of_silent (silent : life fd events = .closed []) : ¬Served fd events := by
  rintro ⟨response, closed⟩
  rw [silent] at closed
  exact response.render_ne_nil (Connection.closed.inj closed).symm

theorem sscanf_eq (request : List UInt8) (method : Block 16) (path : Block 128) :
    sscanf request method path =
      match words isspace request with
      | [] => some (-1, method, path)
      | [first] => (method.write 0 (first ++ [0])).map (1, ·, path)
      | first :: second :: _ => (method.write 0 (first ++ [0])).bind fun method =>
        (path.write 0 (second ++ [0])).map (2, method, ·) := by
  simp only [sscanf]
  rw [words_eq]
  by_cases blanks : request.dropWhile isspace = []
  · simp [blanks]
  · rw [if_neg blanks, if_neg blanks, words_eq]
    by_cases single :
        ((request.dropWhile isspace).dropWhile (!isspace ·)).dropWhile isspace = []
    · rw [if_pos single]
      simp only [single, if_true, Option.bind_eq_bind]
      cases method.write 0 _ <;> rfl
    · rw [if_neg single]
      simp only [single, if_false, Option.bind_eq_bind]
      cases method.write 0 _ with
      | none => rfl
      | some method => cases path.write 0 _ <;> rfl

/-- The array of the request holds what is seen of it. -/
theorem request_seen (request : Block bufSize) (arrived : List UInt8) :
    ∃ filled ended, request.write 0 (arrived.take (bufSize - 1)) = some filled ∧
      filled.write (arrived.take (bufSize - 1)).length [0] = some ended ∧
      cstring ended.bytes = some (seen arrived) := by
  have short : (arrived.take (bufSize - 1)).length < bufSize :=
    Nat.lt_of_le_of_lt (List.length_take_le ..) (by decide)
  obtain ⟨filled, stored⟩ := write_some request 0 (arrived.take (bufSize - 1)) (by
    rw [Nat.zero_add]
    exact Nat.le_of_lt short)
  obtain ⟨ended, ends⟩ := write_some filled (arrived.take (bufSize - 1)).length [0] short
  refine ⟨filled, ended, stored, ends, ?_⟩
  have bytes := bytes_write stored
  rw [List.take_zero, List.nil_append] at bytes
  have front : filled.bytes.take (arrived.take (bufSize - 1)).length =
      arrived.take (bufSize - 1) := by
    rw [bytes, List.take_left]
  rw [bytes_write ends, front, List.append_assoc, List.singleton_append, cstring_takeWhile]
  rfl

/-- The answer to a request that is not understood. -/
def badRequestAnswer : Response :=
  .sized 400 (text "Bad Request") [] [] (by decide) (by decide) (by decide) (by decide)

def methodNotAllowedAnswer : Response :=
  .sized 405 (text "Method Not Allowed") [] [] (by decide) (by decide) (by decide) (by decide)

/-- The answer that carries a file. -/
def okAnswer (body : List UInt8) : Response :=
  .sized 200 (text "OK") [(text "Content-Type", text "text/html ")] body (by decide) (by decide)
    (by decide) (by decide)

theorem render_badRequest : badRequestAnswer.render = badRequest := rfl

theorem render_methodNotAllowed : methodNotAllowedAnswer.render = methodNotAllowed := rfl

theorem render_ok (body : List UInt8) :
    (okAnswer body).render = okHeader body.length ++ body := by
  have header : text "HTTP/1.1 200 OK\r\nContent-Type: text/html \r\nContent-Length: " =
      text "HTTP/1.1 " ++ decimal 200 ++ text " " ++ text "OK" ++ crlf ++
        (text "Content-Type" ++ text ": " ++ text "text/html " ++ crlf) ++
        (contentLength ++ text ": ") := by decide
  have ends : text "\r\n\r\n" = crlf ++ crlf := by decide
  rw [okHeader, header, ends]
  simp only [Response.render, Response.statusLine, okAnswer, Response.sized,
    List.singleton_append, List.flatMap_cons, List.flatMap_nil, List.append_nil, List.append_assoc]

/-- The header of a file that fits `body` fits its own array. -/
theorem header_fits (length : Nat) (short : length < bufSize) :
    snprintf bufSize (okHeader length) = okHeader length := by
  have small : length < 10000 := Nat.lt_trans short (by decide)
  have digits := length_decimal_le length small
  have front : (text "HTTP/1.1 200 OK\r\nContent-Type: text/html \r\nContent-Length: ").length =
    59 := by decide
  have back : (text "\r\n\r\n").length = 4 := by decide
  apply List.take_of_length_le
  rw [okHeader, List.length_append, List.length_append, front, back, bufSize]
  omega

section Connection

variable (webRoot : List UInt8) (files : Files) (frame : Frame)

/-- Without an error of `read` it is the words of the request that decide. -/
theorem serveClient_some (arrived : List UInt8) (clientSock : Nat) :
    serveClient webRoot files frame (some arrived) clientSock =
      match words isspace (seen arrived) with
      | [] => some [.write clientSock badRequest, .close clientSock]
      | [method] =>
        if method.length < 16 then some [.write clientSock badRequest, .close clientSock] else none
      | method :: path :: _ =>
        if method.length < 16 ∧ path.length < 128 then
          serveMethod webRoot files frame method path clientSock
        else none := by
  have nonzero : ∀ word ∈ words isspace (seen arrived), 0 ∉ word := by
    intro word member inside
    have zero := List.mem_takeWhile_imp (mem_of_mem_words member inside)
    simp at zero
  obtain ⟨filled, ended, stored, ends, string⟩ := request_seen frame.request arrived
  simp only [serveClient, read, Option.map_some, Option.bind_eq_bind, stored, ends, string,
    Option.bind_some, sscanf_eq]
  match found : words isspace (seen arrived) with
  | [] => rfl
  | [method] =>
    by_cases fits : method.length < 16
    · obtain ⟨block, written, -⟩ :=
        write_word frame.method (nonzero method (by simp [found])) fits
      simp [written, fits]
    · simp [write_tooLong frame.method fits, fits]
  | method :: path :: _ =>
    by_cases fits : method.length < 16
    · obtain ⟨block, written, reads⟩ :=
        write_word frame.method (nonzero method (by simp [found])) fits
      by_cases fits' : path.length < 128
      · obtain ⟨block', written', reads'⟩ :=
          write_word frame.path (nonzero path (by simp [found])) fits'
        simp [written, written', reads, reads', fits, fits']
      · simp [written, write_tooLong frame.path fits', fits']
    · simp [write_tooLong frame.method fits, fits]

theorem served_write (fd : Nat) (response : Response) :
    Served fd [.write fd response.render, .close fd] :=
  ⟨response, by simp [life, Connection.next]⟩

theorem serveGet_some {fullpath content body : List UInt8} (found : files fullpath = some content)
    (string : cstring (fread frame.body content).bytes = some body) (clientSock : Nat) :
    serveGet files frame fullpath clientSock =
      some [.fopen fullpath, .fclose, .write clientSock (okHeader body.length),
        .write clientSock body, .close clientSock] := by
  have whole := (cstring_eq_some.mp string).2.length_le
  rw [(fread frame.body content).length_bytes, List.length_append, List.length_singleton] at whole
  rw [serveGet, found]
  simp only [Option.bind_eq_bind, string, Option.bind_some, header_fits body.length whole]

theorem serveGet_served (fullpath : List UInt8) (clientSock : Nat) :
    (∃ events, serveGet files frame fullpath clientSock = some events ∧
        Served clientSock events) ↔
      ∃ content, files fullpath = some content ∧ 0 ∈ (fread frame.body content).bytes := by
  constructor
  · rintro ⟨events, done, response, closed⟩
    rw [serveGet] at done
    cases found : files fullpath with
    | none =>
      rw [found] at done
      cases done
      cases closed
    | some content =>
      rw [found] at done
      obtain ⟨body, string, -⟩ := Option.bind_eq_some_iff.mp done
      exact ⟨content, rfl, cstring_isSome.mp (Option.isSome_of_eq_some string)⟩
  · rintro ⟨content, found, ends⟩
    obtain ⟨body, string⟩ := Option.isSome_iff_exists.mp (cstring_isSome.mpr ends)
    refine ⟨_, serveGet_some files frame found string clientSock, okAnswer body, ?_⟩
    rw [render_ok]
    simp [life, Connection.next]

theorem serveMethod_served (method path : List UInt8) (clientSock : Nat) :
    (∃ events, serveMethod webRoot files frame method path clientSock = some events ∧
        Served clientSock events) ↔
      if strcasecmp method (text "GET") then
        ∃ content, files (snprintf 256 (webRoot ++ path)) = some content ∧
          0 ∈ (fread frame.body content).bytes
      else strcasecmp method (text "DELETE") = false := by
  rw [serveMethod]
  by_cases get : strcasecmp method (text "GET")
  · rw [if_pos get, if_pos get]
    exact serveGet_served files frame _ clientSock
  · rw [if_neg get, if_neg get]
    by_cases delete : strcasecmp method (text "DELETE")
    · rw [if_pos delete]
      have silent : life clientSock [.remove (snprintf 256 (webRoot ++ path)),
          .close clientSock] = .closed [] := by simp [life, Connection.next]
      refine iff_of_false ?_ (by simp [delete])
      rintro ⟨events, done, served⟩
      cases done
      exact not_served_of_silent silent served
    · rw [if_neg delete]
      refine iff_of_true ⟨_, rfl, ?_⟩ (by simpa using delete)
      rw [← render_methodNotAllowed]
      exact served_write clientSock _

/-- What `serve_client` does to the connection when it serves none: it leaves it open,
with nothing written, or it closes it. -/
theorem serveMethod_life {method path : List UInt8}
    (done : serveMethod webRoot files frame method path clientSock = some events) :
    life clientSock events = .opened [] ∨ ∃ sent, life clientSock events = .closed sent := by
  rw [serveMethod] at done
  split at done
  · rw [serveGet] at done
    split at done
    · cases done
      exact .inl rfl
    · obtain ⟨body, -, same⟩ := Option.bind_eq_some_iff.mp done
      cases same
      exact .inr (by simp [life, Connection.next])
  · split at done
    · cases done
      exact .inr (by simp [life, Connection.next])
    · cases done
      exact .inr (by simp [life, Connection.next])

theorem serveClient_life
    (done : serveClient webRoot files frame arrived clientSock = some events) :
    life clientSock events = .opened [] ∨ ∃ sent, life clientSock events = .closed sent := by
  have answered : ∃ sent, life clientSock [.write clientSock badRequest, .close clientSock] =
      .closed sent := by simp [life, Connection.next]
  cases arrived with
  | none =>
    cases done
    exact .inl rfl
  | some arrived =>
    rw [serveClient_some] at done
    split at done
    · cases done
      exact .inr answered
    · split at done
      · cases done
        exact .inr answered
      · cases done
    · split at done
      · exact serveMethod_life webRoot files frame done
      · cases done

/-- A `thread` closes a connection that is closed, or one on which nothing was written. -/
theorem thread_not_served
    (ran : handle webRoot files frame .thread arrived connfd = some events) :
    ¬Served connfd events := by
  obtain ⟨before, done, rfl⟩ := Option.map_eq_some_iff.mp ran
  rcases serveClient_life webRoot files frame done with silent | ⟨sent, closed⟩
  · apply not_served_of_silent
    simp [life_append, silent, Connection.next]
  · rintro ⟨response, again⟩
    simp [life_append, closed, Connection.next] at again

/-- A connection is served exactly if `main` serves it, `read` succeeds and the request
is answerable. -/
theorem served_iff (way : Way) (arrived : Option (List UInt8)) (connfd : Nat) :
    (∃ events, handle webRoot files frame way arrived connfd = some events ∧
        Served connfd events) ↔
      way = .main ∧ ∃ received, arrived = some received ∧
        Answerable webRoot files frame (seen received) := by
  have bad : Served connfd [.write connfd badRequest, .close connfd] := by
    rw [← render_badRequest]
    exact served_write connfd _
  cases way with
  | thread =>
    refine iff_of_false ?_ (by simp)
    rintro ⟨events, ran, served⟩
    exact thread_not_served webRoot files frame ran served
  | main =>
    rw [handle]
    cases arrived with
    | none =>
      refine iff_of_false ?_ (by simp)
      rintro ⟨events, ran, response, closed⟩
      cases ran
      cases closed
    | some received =>
      simp only [true_and, Option.some.injEq, exists_eq_left', serveClient_some, Answerable]
      match words isspace (seen received) with
      | [] => exact iff_of_true ⟨_, rfl, bad⟩ trivial
      | [method] =>
        by_cases fits : method.length < 16
        · exact iff_of_true ⟨_, if_pos fits, bad⟩ fits
        · simp [fits]
      | method :: path :: _ =>
        by_cases fits : method.length < 16 ∧ path.length < 128
        · simp only [fits, and_self, if_true, true_and]
          exact serveMethod_served webRoot files frame method path connfd
        · refine iff_of_false ?_ fun both => fits ⟨both.1, both.2.1⟩
          rintro ⟨events, ran, -⟩
          cases (if_neg fits).symm.trans ran

end Connection

/-- A GET of a file that is missing gets no response and leaves the connection open. -/
theorem missing_file_unserved :
    ¬ ∀ (way : Way) (webRoot : List UInt8) (files : Files) (frame : Frame)
      (arrived : List UInt8) (connfd : Nat), ∃ events,
        handle webRoot files frame way (some arrived) connfd = some events ∧
          Served connfd events := by
  intro always
  have frame : Frame := ⟨.zero _, .zero _, .zero _, .zero _⟩
  obtain ⟨events, ran, response, closed⟩ := always .main (text "/home/mywebsite")
    (fun _ => none) frame (text "GET /none HTTP/1.1\r\n\r\n") 4
  rw [handle, serveClient_some] at ran
  cases ran
  cases closed

end CssLab.Web

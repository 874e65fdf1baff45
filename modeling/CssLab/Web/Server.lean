import CssLab.Lib.Words
import CssLab.Lib.Http

/-! `web-server.c`: what happens to a connection. -/

namespace CssLab.Web

open Block Http

/-- `BUF_SIZE` -/
abbrev bufSize : Nat := 1024

/-- The calls with an effect outside the process; `fclose` is that of the file just opened. -/
inductive Event
  | fopen (path : List UInt8)
  | fclose
  | remove (path : List UInt8)
  | write (fd : Nat) (bytes : List UInt8)
  | close (fd : Nat)
  deriving DecidableEq

/-- What `fopen` and then `fread` find at a path: none where `fopen` fails, and no
bytes where `fread` does, as it does for a directory. -/
abbrev Files := List UInt8 → Option (List UInt8)

/-- The arrays of `serve_client` that may be read beyond what was stored there, as
its frame on the stack had them. -/
structure Frame where
  request : Block bufSize
  method : Block 16
  path : Block 128
  body : Block bufSize

def badRequest : List UInt8 := text "HTTP/1.1 400 Bad Request\r\nContent-Length: 0\r\n\r\n"

def methodNotAllowed : List UInt8 :=
  text "HTTP/1.1 405 Method Not Allowed\r\nContent-Length: 0\r\n\r\n"

/-- The header of a file of this length. -/
def okHeader (length : Nat) : List UInt8 :=
  text "HTTP/1.1 200 OK\r\nContent-Type: text/html \r\nContent-Length: " ++ decimal length ++
    text "\r\n\r\n"

/-- `read` of a connection: none is its error, and of what the client sent it gives as
much of what has arrived as the count allows. -/
def read (arrived : Option (List UInt8)) (count : Nat) : Option (List UInt8) :=
  arrived.map (List.take count)

/-- `fread(body, 1, sizeof(body), file)` -/
def fread (body : Block size) (content : List UInt8) : Block size where
  bytes := content.take size ++ body.bytes.drop content.length
  length_bytes := by
    rw [List.length_append, List.length_take, List.length_drop, body.length_bytes]
    omega

/-- What `snprintf` leaves of a string in an array of this size. -/
def snprintf (size : Nat) (string : List UInt8) : List UInt8 := string.take (size - 1)

def isspace (byte : UInt8) : Bool := byte = 32 ∨ 9 ≤ byte ∧ byte ≤ 13

/-- `sscanf(request, "%s %s", method, path)`: the result and the arrays. A word too
long for its array is stored all the same. -/
def sscanf (request : List UInt8) (method : Block 16) (path : Block 128) :
    Option (Int × Block 16 × Block 128) :=
  let input := request.dropWhile isspace
  if input = [] then some (-1, method, path)
  else do
    let method ← method.write 0 (input.takeWhile (!isspace ·) ++ [0])
    let input := (input.dropWhile (!isspace ·)).dropWhile isspace
    if input = [] then some (1, method, path)
    else do
      let path ← path.write 0 (input.takeWhile (!isspace ·) ++ [0])
      some (2, method, path)

section Connection

variable (webRoot : List UInt8) (files : Files) (frame : Frame)

/-- The part for GET. -/
def serveGet (fullpath : List UInt8) (clientSock : Nat) : Option (List Event) :=
  match files fullpath with
  | none => some [.fopen fullpath]
  | some content => do
    let body ← cstring (fread frame.body content).bytes
    let header := snprintf bufSize (okHeader body.length)
    some [.fopen fullpath, .fclose, .write clientSock header, .write clientSock body,
      .close clientSock]

/-- What follows the parsing of a request. -/
def serveMethod (method path : List UInt8) (clientSock : Nat) : Option (List Event) :=
  let fullpath := snprintf 256 (webRoot ++ path)
  if strcasecmp method (text "GET") then serveGet files frame fullpath clientSock
  else if strcasecmp method (text "DELETE") then
    -- The response that the result of `remove` selects stays in its array.
    some [.remove fullpath, .close clientSock]
  else some [.write clientSock methodNotAllowed, .close clientSock]

def serveClient (arrived : Option (List UInt8)) (clientSock : Nat) : Option (List Event) :=
  match read arrived (bufSize - 1) with
  | none => some []
  | some received => do
    let request ← frame.request.write 0 received
    let request ← request.write received.length [0]
    let (scanResult, method, path) ← sscanf (← cstring request.bytes) frame.method frame.path
    if scanResult ≠ 2 then some [.write clientSock badRequest, .close clientSock]
    else do
      let method ← cstring method.bytes
      let path ← cstring path.bytes
      serveMethod webRoot files frame method path clientSock

/-- Who serves a connection: `main` after `accept`, or a `thread` of the pool. -/
inductive Way
  | main
  | thread
  deriving DecidableEq

def handle (way : Way) (arrived : Option (List UInt8)) (connfd : Nat) : Option (List Event) :=
  match way with
  | .main => serveClient webRoot files frame arrived connfd
  | .thread => (serveClient webRoot files frame arrived connfd).map (· ++ [.close connfd])

end Connection

end CssLab.Web

import Glossator.Comment.Http

/-!
# HTTP messages

The bytes of a request and of its reply. A connection serves one request, so that a reply ends with
it; a reply sent in chunks is put together.
-/

set_option autoImplicit false

namespace Glossator.Http

/-- Where a request goes: the host, the number of its socket, and the path on the host. -/
structure Address where
  host : Text
  socket : Nat
  target : Text
deriving DecidableEq, Repr

/-- The address that a text names; only plain HTTP is known. -/
def Address.ofText? (t : Text) : Option Address := do
  let rest ← Text.after? "http://".toList t
  let authority := rest.takeWhile (· ≠ '/')
  let host := authority.takeWhile (· ≠ ':')
  let socket ← match authority.dropWhile (· ≠ ':') with
    | [] => some 80
    | _ :: digits =>
      if digits ≠ [] ∧ digits.all Char.isDigit ∧ Digits.value 10 digits < 65536 then
        some (Digits.value 10 digits)
      else none
  if host.isEmpty then none
  else some ⟨host, socket, match rest.dropWhile (· ≠ '/') with
    | [] => ['/']
    | target => target⟩

/-- The first line of a request to an address. -/
def Address.requestLine (a : Address) : Text := "POST ".toList ++ a.target ++ " HTTP/1.1".toList

/-- The kind of content that a request carries. -/
def contentType : String := "application/json"

/-- The bytes of a request to an address. -/
def Address.request (a : Address) (body : String) : Bytes :=
  let content := Utf8.encode body.toList
  let header (name : String) (value : Text) : Text :=
    name.toList ++ ':' :: ' ' :: (value ++ ['\r', '\n'])
  Utf8.encode (a.requestLine ++ ['\r', '\n'] ++
    header "host" (a.host ++ ':' :: Digits.decimal a.socket) ++
    header "content-type" contentType.toList ++
    header "content-length" (Digits.decimal content.length) ++
    header "connection" "close".toList ++ ['\r', '\n']) ++ content

/-- The lines of the head of a reply, and the bytes after it; at most so many bytes are read. -/
def head? : Nat → Text → Bytes → Option (List Text × Bytes)
  | _, _, [] => none
  | 0, _, _ => none
  | bound + 1, line, b :: bytes =>
    let c := Char.ofNat b.toNat
    if c = '\n' then
      let line := Text.trimEnd line.reverse
      if line.isEmpty then some ([], bytes)
      else (head? bound [] bytes).map fun (lines, rest) => (line :: lines, rest)
    else head? bound (c :: line) bytes

/-- The content of a body sent in chunks; at most so many chunks are read. -/
def chunks : Nat → Bytes → Bytes
  | 0, _ => []
  | bound + 1, bytes =>
    let digits := bytes.takeWhile fun b => Digits.isDigitOf 16 (Char.ofNat b.toNat)
    let size := Digits.value 16 (digits.map fun b => Char.ofNat b.toNat)
    let content := (bytes.dropWhile (· ≠ 10)).drop 1
    if size = 0 then [] else content.take size ++ chunks bound (content.drop (size + 2))

/-- The reply in the bytes of a connection. -/
def Reply.ofBytes? (bytes : Bytes) : Option Reply := do
  let (lines, body) ← head? bytes.length [] bytes
  let status := ((← lines.head?).dropWhile (· ≠ ' ')).drop 1
  let isChunked :=
    lines.any fun line => line.map Char.toLower == "transfer-encoding: chunked".toList
  some ⟨Digits.value 10 (status.takeWhile Char.isDigit),
    if isChunked then chunks body.length body else body⟩

end Glossator.Http

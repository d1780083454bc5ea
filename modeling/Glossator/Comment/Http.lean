import Glossator.Comment.Service
import Glossator.Config
import Glossator.Json.Reader
import Glossator.Text.Utf8

/-!
# Comments over HTTP

The service takes a request by POST and replies with a JSON record whose field `comment` holds the
comment. Sending is left to the caller: a service is made from any way to exchange a body for a
reply.
-/

set_option autoImplicit false

namespace Glossator.Http

/-- What a server replies. -/
structure Reply where
  status : Nat
  body : Bytes

/-- The address that requests are sent to; the base address must not be blank. -/
def endpoint (s : ServiceSettings) : Except Error String :=
  match Text.dropEndWhile (· = '/') (Text.trim s.baseUrl.toList) with
  | [] => .error (.config .baseUrlMissing)
  | base => .ok (String.ofList base ++ "/prompt")

/-- The phrase that belongs to a status. -/
def reason? : Nat → Option String
  | 100 => "Continue"
  | 101 => "Switching Protocols"
  | 102 => "Processing"
  | 103 => "Early Hints"
  | 200 => "OK"
  | 201 => "Created"
  | 202 => "Accepted"
  | 203 => "Non Authoritative Information"
  | 204 => "No Content"
  | 205 => "Reset Content"
  | 206 => "Partial Content"
  | 207 => "Multi-Status"
  | 208 => "Already Reported"
  | 226 => "IM Used"
  | 300 => "Multiple Choices"
  | 301 => "Moved Permanently"
  | 302 => "Found"
  | 303 => "See Other"
  | 304 => "Not Modified"
  | 305 => "Use Proxy"
  | 307 => "Temporary Redirect"
  | 308 => "Permanent Redirect"
  | 400 => "Bad Request"
  | 401 => "Unauthorized"
  | 402 => "Payment Required"
  | 403 => "Forbidden"
  | 404 => "Not Found"
  | 405 => "Method Not Allowed"
  | 406 => "Not Acceptable"
  | 407 => "Proxy Authentication Required"
  | 408 => "Request Timeout"
  | 409 => "Conflict"
  | 410 => "Gone"
  | 411 => "Length Required"
  | 412 => "Precondition Failed"
  | 413 => "Payload Too Large"
  | 414 => "URI Too Long"
  | 415 => "Unsupported Media Type"
  | 416 => "Range Not Satisfiable"
  | 417 => "Expectation Failed"
  | 418 => "I'm a teapot"
  | 421 => "Misdirected Request"
  | 422 => "Unprocessable Entity"
  | 423 => "Locked"
  | 424 => "Failed Dependency"
  | 425 => "Too Early"
  | 426 => "Upgrade Required"
  | 428 => "Precondition Required"
  | 429 => "Too Many Requests"
  | 431 => "Request Header Fields Too Large"
  | 451 => "Unavailable For Legal Reasons"
  | 500 => "Internal Server Error"
  | 501 => "Not Implemented"
  | 502 => "Bad Gateway"
  | 503 => "Service Unavailable"
  | 504 => "Gateway Timeout"
  | 505 => "HTTP Version Not Supported"
  | 506 => "Variant Also Negotiates"
  | 507 => "Insufficient Storage"
  | 508 => "Loop Detected"
  | 510 => "Not Extended"
  | 511 => "Network Authentication Required"
  | _ => none

/-- A status in words. -/
def statusLine (status : Nat) : String :=
  Digits.ofNatString status ++ " " ++ (reason? status).getD "<unknown status code>"

/-- The body that a reply carries: some statuses have none. -/
def Reply.content (r : Reply) : Bytes := if r.status = 204 ∨ r.status = 304 then [] else r.body

/-- The comment in a body: the one field of that name, or the only item of an array. -/
def comment? (body : Bytes) : Option String := do
  let t ← Utf8.decode? body
  match ← Json.readNested? t.length t with
  | .object fields =>
    match fields.filter fun field => field.1 == "comment" with
    | [(_, .string s)] => some s
    | _ => none
  | .array [.string s] => some s
  | _ => none

/-- The comment in a reply. -/
def Reply.comment (r : Reply) : Except Error String :=
  if 200 ≤ r.status && r.status < 300 then
    match comment? r.content with
    | some s => .ok s
    | none =>
      .error (.backend "Failed to parse comment service response: error decoding response body")
  else
    .error (.backend ("Comment service error " ++ statusLine r.status ++ ": " ++
      String.ofList (Utf8.decodeLossy r.content)))

/-- A way to exchange the body of a request for a reply; it may fail for a reason. -/
abbrev Exchange := (endpoint body : String) → Except String Reply

/-- The service at an address. -/
def service (exchange : Exchange) (endpoint : String) : Service where
  name := "HTTP comment service"
  answer request :=
    match exchange endpoint request.payload.toCompact with
    | .ok reply => reply.comment
    | .error reason => .error (.backend ("Request to " ++ endpoint ++ " failed: " ++ reason))

/-- The service of a configuration, if it is enabled and has an address. -/
def connect (exchange : Exchange) (s : ServiceSettings) : Except Error Service :=
  if s.enabled then (endpoint s).map (service exchange)
  else .error (.config .backendDisabled)

end Glossator.Http

import ProxyLease.Duration
import ProxyLease.Endpoint.Basic

/-!
# Peers and their answers

A peer either refuses connections or follows a script: each request takes the next
reply, and the last one repeats. What a request comes to also depends on the link:
when it is down nobody can be reached and every connection is refused.
-/

namespace ProxyLease

structure Response where
  status : Nat
  headers : List (String × String)
  body : String

inductive Reply where
  | response (answer : Response) (delay : Duration)
  | silence
  /-- The connection ends without an answer, or carries something that is none. -/
  | garbage

inductive Peer where
  | refusing
  | scripted (replies : List Reply)

/-- Whether peers can be reached. -/
inductive Link where
  | up
  | down
  deriving DecidableEq

/-- What one request came to, with the time of an answer. -/
inductive Exchange where
  | answered (answer : Response) (delay : Duration)
  | refused
  | broken
  | silent

namespace Peer

/-- The reply to the request after `earlier` ones. -/
def reply (replies : List Reply) (earlier : Nat) : Reply :=
  (replies[earlier]?).getD (replies.getLast?.getD .silence)

/-- What a request through a proxy comes to. A peer that awaits a request never gets one
from a client that first negotiates a tunnel. -/
def exchange (p : Peer) (link : Link) (transport : Transport) (earlier : Nat) : Exchange :=
  match link, p with
  | .down, _ => .refused
  | .up, .refusing => .refused
  | .up, .scripted replies =>
    if transport = .http then
      match reply replies earlier with
      | .response answer delay => .answered answer delay
      | .silence => .silent
      | .garbage => .broken
    else .silent

/-- Whether the peer sees the request. -/
def isReached (p : Peer) (link : Link) (transport : Transport) : Bool :=
  match link, p with
  | .up, .scripted _ => transport == .http
  | _, _ => false

end Peer

/-- How a request ended before a deadline, and when. -/
inductive Delivery where
  | answered (answer : Response)
  | timedOut
  | refused
  | broken

/-- The end of an exchange under a deadline. -/
def Exchange.within (e : Exchange) (deadline : Duration) : Delivery × Duration :=
  match e with
  | .answered answer delay =>
    if delay ≤ deadline then (.answered answer, delay) else (.timedOut, deadline)
  | .refused => (.refused, .zero)
  | .broken => (.broken, .zero)
  | .silent => (.timedOut, deadline)

def reasonPhrase? : Nat → Option String
  | 100 => some "Continue"
  | 101 => some "Switching Protocols"
  | 102 => some "Processing"
  | 103 => some "Early Hints"
  | 200 => some "OK"
  | 201 => some "Created"
  | 202 => some "Accepted"
  | 203 => some "Non Authoritative Information"
  | 204 => some "No Content"
  | 205 => some "Reset Content"
  | 206 => some "Partial Content"
  | 207 => some "Multi-Status"
  | 208 => some "Already Reported"
  | 226 => some "IM Used"
  | 300 => some "Multiple Choices"
  | 301 => some "Moved Permanently"
  | 302 => some "Found"
  | 303 => some "See Other"
  | 304 => some "Not Modified"
  | 305 => some "Use Proxy"
  | 307 => some "Temporary Redirect"
  | 308 => some "Permanent Redirect"
  | 400 => some "Bad Request"
  | 401 => some "Unauthorized"
  | 402 => some "Payment Required"
  | 403 => some "Forbidden"
  | 404 => some "Not Found"
  | 405 => some "Method Not Allowed"
  | 406 => some "Not Acceptable"
  | 407 => some "Proxy Authentication Required"
  | 408 => some "Request Timeout"
  | 409 => some "Conflict"
  | 410 => some "Gone"
  | 411 => some "Length Required"
  | 412 => some "Precondition Failed"
  | 413 => some "Payload Too Large"
  | 414 => some "URI Too Long"
  | 415 => some "Unsupported Media Type"
  | 416 => some "Range Not Satisfiable"
  | 417 => some "Expectation Failed"
  | 418 => some "I'm a teapot"
  | 421 => some "Misdirected Request"
  | 422 => some "Unprocessable Entity"
  | 423 => some "Locked"
  | 424 => some "Failed Dependency"
  | 425 => some "Too Early"
  | 426 => some "Upgrade Required"
  | 428 => some "Precondition Required"
  | 429 => some "Too Many Requests"
  | 431 => some "Request Header Fields Too Large"
  | 451 => some "Unavailable For Legal Reasons"
  | 500 => some "Internal Server Error"
  | 501 => some "Not Implemented"
  | 502 => some "Bad Gateway"
  | 503 => some "Service Unavailable"
  | 504 => some "Gateway Timeout"
  | 505 => some "HTTP Version Not Supported"
  | 506 => some "Variant Also Negotiates"
  | 507 => some "Insufficient Storage"
  | 508 => some "Loop Detected"
  | 510 => some "Not Extended"
  | 511 => some "Network Authentication Required"
  | _ => none

def statusText (status : Nat) : String :=
  toString status ++ " " ++ (reasonPhrase? status).getD "<unknown status code>"

end ProxyLease

import Libnodecc.Http.HttpDateBuffer
import Libnodecc.Http.OutgoingStream

namespace Libnodecc.Http

open Util Wire

/-- `STATUS_CODES`: a code, the length of its text and the text. -/
def statusCodes : List (Nat × Nat × Option Bytes) :=
  [(100, 12, some (ascii "100 Continue")), (101, 23, some (ascii "101 Switching Protocols")),
    (102, 14, some (ascii "102 Processing")), (200, 6, some (ascii "200 OK")),
    (201, 11, some (ascii "201 Created")), (202, 12, some (ascii "202 Accepted")),
    (203, 33, some (ascii "203 Non-Authoritative Information")),
    (204, 14, some (ascii "204 No Content")), (205, 17, some (ascii "205 Reset Content")),
    (206, 19, some (ascii "206 Partial Content")), (207, 16, some (ascii "207 Multi-Status")),
    (300, 20, some (ascii "300 Multiple Choices")),
    (301, 21, some (ascii "301 Moved Permanently")),
    (302, 21, some (ascii "302 Moved Temporarily")), (303, 13, some (ascii "303 See Other")),
    (304, 16, some (ascii "304 Not Modified")), (305, 13, some (ascii "305 Use Proxy")),
    (306, 16, some (ascii "306 Switch Proxy")), (307, 22, some (ascii "307 Temporary Redirect")),
    (400, 15, some (ascii "400 Bad Request")), (401, 16, some (ascii "401 Unauthorized")),
    (402, 20, some (ascii "402 Payment Required")), (403, 13, some (ascii "403 Forbidden")),
    (404, 13, some (ascii "404 Not Found")), (405, 22, some (ascii "405 Method Not Allowed")),
    (406, 18, some (ascii "406 Not Acceptable")),
    (407, 33, some (ascii "407 Proxy Authentication Required")),
    (408, 19, some (ascii "408 Request Timeout")), (409, 12, some (ascii "409 Conflict")),
    (410, 8, some (ascii "410 Gone")), (411, 19, some (ascii "411 Length Required")),
    (412, 23, some (ascii "412 Precondition Failed")),
    (413, 28, some (ascii "413 Request Entity Too Large")),
    (414, 25, some (ascii "414 Request-URI Too Large")),
    (415, 26, some (ascii "415 Unsupported Media Type")),
    (416, 35, some (ascii "416 Requested Range Not Satisfiable")),
    (417, 22, some (ascii "417 Expectation Failed")), (418, 16, some (ascii "418 I'm a teapot")),
    (419, 0, none), (420, 0, none), (421, 0, none),
    (422, 24, some (ascii "422 Unprocessable Entity")), (423, 10, some (ascii "423 Locked")),
    (424, 21, some (ascii "424 Failed Dependency")),
    (425, 24, some (ascii "425 Unordered Collection")),
    (426, 20, some (ascii "426 Upgrade Required")), (427, 0, none),
    (428, 25, some (ascii "428 Precondition Required")),
    (429, 21, some (ascii "429 Too Many Requests")), (430, 0, none),
    (431, 35, some (ascii "431 Request Header Fields Too Large")),
    (500, 25, some (ascii "500 Internal Server Error")),
    (501, 19, some (ascii "501 Not Implemented")), (502, 15, some (ascii "502 Bad Gateway")),
    (503, 23, some (ascii "503 Service Unavailable")),
    (504, 20, some (ascii "504 Gateway Time-out")),
    (505, 30, some (ascii "505 HTTP Version Not Supported")),
    (506, 27, some (ascii "506 Variant Also Negotiates")),
    (507, 24, some (ascii "507 Insufficient Storage")),
    (508, 17, some (ascii "508 Loop Detected")),
    (509, 28, some (ascii "509 Bandwidth Limit Exceeded")),
    (510, 16, some (ascii "510 Not Extended")),
    (511, 35, some (ascii "511 Network Authentication Required"))]

/-- `str_status_code`: length and base. -/
def strStatusCode (statusCode : UInt16) : Nat × Option Bytes :=
  match statusCodes.find? fun entry => entry.1 = statusCode.toNat with
  | some (_, len, str) => (len, str)
  | none => (0, none)

/-- `server_response`; `date` is the time the date buffer shows once it is updated. -/
structure ServerResponse where
  stream : OutgoingStream
  statusCode : UInt16
  shutdownOnEnd : Bool
  date : Tm

namespace ServerResponse

def init (isChunked : Bool) (date : Tm) : ServerResponse := ⟨.init isChunked, 200, true, date⟩

/-- The text that `compile_headers` appends. -/
def status (statusCode : UInt16) : Bytes :=
  let status := strStatusCode statusCode
  let status := if status.2.isNone then strStatusCode 500 else status
  (status.2.getD []).take status.1

def compileHeaders (r : ServerResponse) (order : Headers → List Bytes) : Headers → Bytes :=
  responseHeaders (status r.statusCode) (updateBuffer r.date) r.shutdownOnEnd order

/-- What `_end` does behind `outgoing_message::_end`. -/
def finish (r : ServerResponse) : ServerResponse :=
  { r with
    stream := { (if r.shutdownOnEnd then r.stream.endSocket else r.stream) with isWritable := false }
    statusCode := 200
    shutdownOnEnd := true }

/-- `write` and `end`; `true` if they threw. -/
def call (build : Build) (order : Headers → List Bytes) (r : ServerResponse) (c : OutgoingCall 64) :
    Option (ServerResponse × Bool) :=
  if r.stream.isWritable then
    (r.stream.transfer build (r.compileHeaders order) c).map fun (s, threw) =>
      let r := { r with stream := s }
      (if c.last && !threw then r.finish else r, threw)
  else some (r, !c.last)

end ServerResponse

/-- What happens to a response: its methods are called, the date buffer is updated, its socket is
ended by the peer or by others, or destroyed. -/
inductive ResponseEvent where
  | setStatusCode (code : UInt16)
  | setHeader (key : Bytes) (value : Buf)
  | call (c : OutgoingCall 64)
  | updateDate (date : Tm)
  | endSocket
  | destroy

def ServerResponse.step (build : Build) (order : Headers → List Bytes) (r : ServerResponse) :
    ResponseEvent → Option ServerResponse
  | .setStatusCode code => some { r with statusCode := code }
  | .setHeader key value => some { r with stream := r.stream.setHeader key value }
  | .call c => (r.call build order c).map Prod.fst
  | .updateDate date => some { r with date := date }
  | .endSocket => some { r with stream := r.stream.endSocket }
  | .destroy => some { r with stream := r.stream.destroy }

def threeDigits (n : Nat) : Bytes := [n / 100, n / 10 % 10, n % 10].map Buf.digitChar

theorem decimal_threeDigits (n : Nat) (h : n < 1000) : Buf.decimal (threeDigits n) = some n := by
  rw [threeDigits, Buf.decimal_digits _ (by simp)]
  · simp only [readDigits, List.foldl_cons, List.foldl_nil]
    congr 1
    omega
  · intro d hd
    simp only [List.mem_cons, List.not_mem_nil, or_false] at hd
    omega

theorem statusCodes_lines : ∀ entry ∈ statusCodes, ∀ text ∈ entry.2.2,
    text.length = entry.2.1 ∧ text.take 3 = threeDigits entry.1 ∧ entry.1 < 1000 ∧
      Unbroken text := by
  decide +kernel

/-- Each length in the table is that of its text, and each text starts with its code. -/
theorem statusCodes_text (entry : Nat × Nat × Option Bytes) (h : entry ∈ statusCodes) (text : Bytes)
    (ht : text ∈ entry.2.2) :
    text.length = entry.2.1 ∧ Buf.decimal (text.take 3) = some entry.1 ∧ Unbroken text := by
  obtain ⟨hlen, htake, hsmall, hunbroken⟩ := statusCodes_lines entry h text ht
  refine ⟨hlen, ?_, hunbroken⟩
  rw [htake]
  exact decimal_threeDigits entry.1 hsmall

theorem status_internal (code : UInt16) (h : (strStatusCode code).2 = none) :
    ServerResponse.status code = ascii "500 Internal Server Error" := by
  have h500 : strStatusCode 500 = (25, some (ascii "500 Internal Server Error")) := by
    decide +kernel
  simp only [ServerResponse.status, h, Option.isNone_none, if_true, h500, Option.getD_some]
  decide

/-- A code of the table is sent with its whole text, every other one as 500. -/
theorem status_eq (code : UInt16) :
    ((strStatusCode code).2 = some (ServerResponse.status code) ∧
        ∃ len, (code.toNat, len, some (ServerResponse.status code)) ∈ statusCodes) ∨
      (strStatusCode code).2 = none ∧
        ServerResponse.status code = ascii "500 Internal Server Error" := by
  cases hstr : (strStatusCode code).2 with
  | none => exact .inr ⟨rfl, status_internal code hstr⟩
  | some text =>
    left
    cases hfind : statusCodes.find? fun entry => entry.1 = code.toNat with
    | none => simp [strStatusCode, hfind] at hstr
    | some entry =>
      obtain ⟨known, len, str⟩ := entry
      have hmem := List.mem_of_find?_eq_some hfind
      obtain rfl : known = code.toNat := by simpa using List.find?_some hfind
      obtain rfl : str = some text := by simpa only [strStatusCode, hfind] using hstr
      obtain ⟨hlen, -, -⟩ := statusCodes_text _ hmem text rfl
      have hstatus : ServerResponse.status code = text := by
        simp only [ServerResponse.status, strStatusCode, hfind, Option.isNone_some,
          Bool.false_eq_true, if_false, Option.getD_some]
        exact List.take_of_length_le hlen.le
      exact ⟨by rw [hstatus], len, hstatus ▸ hmem⟩

theorem status_unbroken (code : UInt16) : Unbroken (ServerResponse.status code) := by
  rcases status_eq code with ⟨-, len, hmem⟩ | ⟨-, heq⟩
  · exact (statusCodes_text _ hmem _ rfl).2.2
  · rw [heq]
    decide

end Libnodecc.Http

import Libnodecc.Framework.Emplace
import Libnodecc.Http.HeaderBlock
import Libnodecc.Http.IncomingMessage
import Mathlib.Data.List.Nodup

namespace Libnodecc.Http

/-- `set_header` with its key and value. -/
abbrev SetHeader := Bytes × Buf

/-- The headers of a message after calls of `set_header`. -/
def setHeaders (calls : List SetHeader) : Headers := emplaceAll noHeaders calls

/-- A line of a header block; `own` marks the lines of the library. -/
structure HeaderLine where
  name : Bytes
  value : Bytes
  own : Bool
  deriving DecidableEq

def HeaderLine.text (l : HeaderLine) : Bytes := l.name ++ ascii ": " ++ l.value ++ crlf

def setLines (keys : List Bytes) (headers : Headers) : List HeaderLine :=
  keys.map fun key => ⟨key, ((headers key).getD none).bytes, false⟩

def hostLine (host : Buf) : HeaderLine := ⟨ascii "host", host.bytes, true⟩

def dateLine (date : Bytes) : HeaderLine := ⟨ascii "date", date, true⟩

def connectionLine : HeaderLine := ⟨ascii "connection", ascii "close", true⟩

/-- The lines of `request::compile_headers`. -/
def requestLines (host : Buf) (order : Headers → List Bytes) (headers : Headers) :
    List HeaderLine :=
  [hostLine host] ++ setLines (order headers) headers ++ []

/-- The lines of `server_response::compile_headers`. -/
def responseLines (date : Bytes) (shutdownOnEnd : Bool) (order : Headers → List Bytes)
    (headers : Headers) : List HeaderLine :=
  (if (headers (ascii "date")).isNone then [dateLine date] else []) ++
    setLines (order headers) headers ++
    if shutdownOnEnd && (headers (ascii "connection")).isNone then [connectionLine] else []

theorem headerLines_text (keys : List Bytes) (headers : Headers) :
    headerLines keys headers = (setLines keys headers).flatMap HeaderLine.text := by
  rw [setLines, List.flatMap_map]
  rfl

theorem requestHeaders_text (method path host : Buf) (order : Headers → List Bytes)
    (headers : Headers) : requestHeaders method path host order headers =
      method.bytes ++ ascii " " ++ path.bytes ++ ascii " HTTP/1.1\r\n" ++
        (requestLines host order headers).flatMap HeaderLine.text ++ crlf := by
  have hhost : ascii " HTTP/1.1\r\nhost: " = ascii " HTTP/1.1\r\n" ++ ascii "host" ++ ascii ": " := by
    decide
  simp only [requestHeaders, requestLines, headerLines_text, hhost, List.flatMap_append,
    List.flatMap_singleton, HeaderLine.text, hostLine, List.append_nil, List.append_assoc]

theorem responseHeaders_text (status date : Bytes) (shutdownOnEnd : Bool)
    (order : Headers → List Bytes) (headers : Headers) :
    responseHeaders status (dateLine date).text shutdownOnEnd order headers =
      ascii "HTTP/1.1 " ++ status ++ crlf ++
        (responseLines date shutdownOnEnd order headers).flatMap HeaderLine.text ++ crlf := by
  have hconnection : ascii "connection: close\r\n" = connectionLine.text := by decide
  simp only [responseHeaders, responseLines, headerLines_text, hconnection, List.flatMap_append,
    List.append_assoc]
  congr 3
  split <;> split <;> simp

/-- One line for each name that was set, with the value set last, and lines of the library for other
names only. `canon` tells which names are the same. -/
structure OneLineEach (canon : Bytes → Bytes) (calls : List SetHeader) (lines : List HeaderLine) :
    Prop where
  once : (lines.map fun l => canon l.name).Nodup
  latest : ∀ name value, lastSet canon calls (canon name) = some value →
    ∃ l ∈ lines, l.own = false ∧ canon l.name = canon name ∧ l.value = value.bytes
  own : ∀ l ∈ lines, l.own = true → lastSet canon calls (canon l.name) = none

/-- Each name is set in one spelling, and its first value is its last. -/
structure Steady (canon : Bytes → Bytes) (calls : List SetHeader) : Prop where
  spelling : ∀ c ∈ calls, ∀ d ∈ calls, canon c.1 = canon d.1 → c.1 = d.1
  value : ∀ c ∈ calls, ((firstSet calls c.1).getD none).bytes =
    ((lastSet canon calls (canon c.1)).getD none).bytes

/-- The keys of the headers in the order they are iterated in. -/
structure Traverses (keys : List Bytes) (headers : Headers) : Prop where
  nodup : keys.Nodup
  mem : ∀ key, key ∈ keys ↔ (headers key).isSome

section
variable {canon : Bytes → Bytes} {calls : List SetHeader} {keys : List Bytes}

theorem setHeaders_apply (key : Bytes) : setHeaders calls key = firstSet calls key :=
  emplaceAll_empty calls key

theorem Traverses.mem_keys (hk : Traverses keys (setHeaders calls)) (key : Bytes) :
    key ∈ keys ↔ ∃ c ∈ calls, c.1 = key := by
  rw [hk.mem, setHeaders_apply, firstSet_isSome]

theorem setLine_mem (hk : Traverses keys (setHeaders calls)) (c : SetHeader) (hc : c ∈ calls) :
    (⟨c.1, ((firstSet calls c.1).getD none).bytes, false⟩ : HeaderLine) ∈
      setLines keys (setHeaders calls) := by
  apply List.mem_map.mpr
  refine ⟨c.1, (hk.mem_keys c.1).mpr ⟨c, hc, rfl⟩, ?_⟩
  rw [setHeaders_apply]

/-- Lines of the library around those that were set. -/
theorem oneLineEach_iff (canon : Bytes → Bytes) (hk : Traverses keys (setHeaders calls))
    (before after : List HeaderLine)
    (hown : ∀ l ∈ before ++ after, l.own = true)
    (hnodup : ((before ++ after).map fun l => canon l.name).Nodup) :
    OneLineEach canon calls (before ++ setLines keys (setHeaders calls) ++ after) ↔
      Steady canon calls ∧ ∀ l ∈ before ++ after, lastSet canon calls (canon l.name) = none := by
  have hset (c : SetHeader) (hc : c ∈ calls) :
      (⟨c.1, ((firstSet calls c.1).getD none).bytes, false⟩ : HeaderLine) ∈
        before ++ setLines keys (setHeaders calls) ++ after :=
    List.mem_append_left _ (List.mem_append_right _ (setLine_mem hk c hc))
  constructor
  · intro h
    have hinj := List.inj_on_of_nodup_map h.once
    refine ⟨⟨?_, ?_⟩, ?_⟩
    · intro c hc d hd hcd
      exact congrArg HeaderLine.name (hinj (hset c hc) (hset d hd) hcd)
    · intro c hc
      cases hlast : lastSet canon calls (canon c.1) with
      | none => exact absurd rfl ((lastSet_eq_none canon calls _).mp hlast c hc)
      | some value =>
        obtain ⟨l, hl, -, hname, hvalue⟩ := h.latest c.1 value hlast
        have hline := hinj hl (hset c hc) hname
        rw [hline] at hvalue
        exact hvalue
    · intro l hl
      apply h.own l
      · simp only [List.mem_append] at hl ⊢
        tauto
      · exact hown l hl
  · rintro ⟨hsteady, hfree⟩
    constructor
    · have hperm : (before ++ setLines keys (setHeaders calls) ++ after).Perm
          (setLines keys (setHeaders calls) ++ (before ++ after)) := by
        rw [← List.append_assoc]
        exact List.perm_append_comm.append_right after
      rw [(hperm.map _).nodup_iff, List.map_append, List.nodup_append]
      refine ⟨?_, hnodup, ?_⟩
      · rw [setLines, List.map_map]
        apply hk.nodup.map_on
        intro x hx y hy hxy
        obtain ⟨c, hc, rfl⟩ := (hk.mem_keys x).mp hx
        obtain ⟨d, hd, rfl⟩ := (hk.mem_keys y).mp hy
        exact hsteady.spelling c hc d hd hxy
      · intro name hname other hother heq
        obtain ⟨l, hl, rfl⟩ := List.mem_map.mp hname
        obtain ⟨m, hm, rfl⟩ := List.mem_map.mp hother
        obtain ⟨key, hkey, rfl⟩ := List.mem_map.mp hl
        obtain ⟨c, hc, rfl⟩ := (hk.mem_keys key).mp hkey
        exact (lastSet_eq_none canon calls _).mp (hfree m hm) c hc heq
    · intro name value hlast
      obtain ⟨c, hc, hname⟩ := lastSet_mem canon calls _ value hlast
      refine ⟨_, hset c hc, rfl, hname, ?_⟩
      have hvalue := hsteady.value c hc
      rw [hname, hlast] at hvalue
      exact hvalue
    · intro l hl hlown
      simp only [List.mem_append] at hl
      rcases hl with (hl | hl) | hl
      · exact hfree l (List.mem_append_left _ hl)
      · obtain ⟨key, -, rfl⟩ := List.mem_map.mp hl
        cases hlown
      · exact hfree l (List.mem_append_right _ hl)

/-- A line that the library leaves out for one spelling only. -/
theorem left_out_iff (hsteady : Steady canon calls) (key : Bytes) :
    ((setHeaders calls key).isNone = true → lastSet canon calls (canon key) = none) ↔
      ∀ c ∈ calls, canon c.1 = canon key → c.1 = key := by
  rw [lastSet_eq_none]
  cases hset : setHeaders calls key with
  | some value =>
    refine iff_of_true nofun ?_
    have hsome : (firstSet calls key).isSome := by
      rw [← setHeaders_apply, hset]
      rfl
    obtain ⟨d, hd, rfl⟩ := (firstSet_isSome calls key).mp hsome
    exact fun c hc hname => hsteady.spelling c hc d hd hname
  | none =>
    have hnone (c : SetHeader) (hc : c ∈ calls) : c.1 ≠ key := by
      intro heq
      have hsome := (firstSet_isSome calls key).mpr ⟨c, hc, heq⟩
      rw [← setHeaders_apply, hset] at hsome
      cases hsome
    constructor
    · intro h c hc hname
      exact absurd hname (h rfl c hc)
    · intro h _ c hc hname
      exact hnone c hc (h c hc hname)

end

/-- Both header blocks have exactly one line for each name, with the value set last, if and only if
each name is set in one spelling and with one value, `host` is not set for a request, and `date` and
`connection` are set in lower case for a response. -/
theorem one_line_each (canon : Bytes → Bytes)
    (hcanon : canon (ascii "date") ≠ canon (ascii "connection")) (calls : List SetHeader)
    (order : Headers → List Bytes)
    (horder : Traverses (order (setHeaders calls)) (setHeaders calls))
    (method path host : Buf) (status date : Bytes) (shutdownOnEnd : Bool) :
    (requestHeaders method path host order (setHeaders calls) =
        method.bytes ++ ascii " " ++ path.bytes ++ ascii " HTTP/1.1\r\n" ++
          (requestLines host order (setHeaders calls)).flatMap HeaderLine.text ++ crlf ∧
      (OneLineEach canon calls (requestLines host order (setHeaders calls)) ↔
        Steady canon calls ∧ ∀ c ∈ calls, canon c.1 ≠ canon (ascii "host"))) ∧
    (responseHeaders status (dateLine date).text shutdownOnEnd order (setHeaders calls) =
        ascii "HTTP/1.1 " ++ status ++ crlf ++
          (responseLines date shutdownOnEnd order (setHeaders calls)).flatMap HeaderLine.text ++
            crlf ∧
      (OneLineEach canon calls (responseLines date shutdownOnEnd order (setHeaders calls)) ↔
        Steady canon calls ∧
          (∀ c ∈ calls, canon c.1 = canon (ascii "date") → c.1 = ascii "date") ∧
          (shutdownOnEnd = true →
            ∀ c ∈ calls, canon c.1 = canon (ascii "connection") → c.1 = ascii "connection"))) := by
  refine ⟨⟨requestHeaders_text _ _ _ _ _, ?_⟩, responseHeaders_text _ _ _ _ _, ?_⟩
  · have h := oneLineEach_iff canon horder [hostLine host] [] (by simp [hostLine])
      (by simp)
    rw [requestLines, h]
    simp only [List.append_nil, List.mem_singleton, forall_eq, lastSet_eq_none]
    rfl
  · have h := oneLineEach_iff canon horder
      (if (setHeaders calls (ascii "date")).isNone then [dateLine date] else [])
      (if shutdownOnEnd && (setHeaders calls (ascii "connection")).isNone then [connectionLine]
        else [])
      (by split <;> split <;> simp [dateLine, connectionLine])
      (by split <;> split <;> simp [dateLine, connectionLine, hcanon])
    rw [responseLines, h]
    refine and_congr_right fun hsteady => ?_
    rw [← left_out_iff hsteady, ← left_out_iff hsteady]
    simp only [List.mem_append, or_imp, forall_and]
    refine and_congr ?_ ?_
    · split
      next hdate => simp [hdate, dateLine]
      next hdate => simp [hdate]
    · cases shutdownOnEnd with
      | false => simp
      | true =>
        rw [Bool.true_and]
        split
        next hconnection => simp [hconnection, connectionLine]
        next hconnection => simp [hconnection]

/-- A response that is kept open, and whose names are compared in lower case. -/
theorem one_line_each_response :
    let calls : List SetHeader := [(ascii "Server", some (ascii "x")), (ascii "date", some [])]
    let order (headers : Headers) : List Bytes :=
      [ascii "date", ascii "Server"].filter fun key => (headers key).isSome
    OneLineEach (List.map toLower) calls (responseLines [] false order (setHeaders calls)) := by
  intro calls order
  have horder : Traverses (order (setHeaders calls)) (setHeaders calls) := by
    constructor
    · decide
    · intro key
      rw [setHeaders_apply, firstSet_isSome]
      have hkeys : order (setHeaders calls) = [ascii "date", ascii "Server"] := by decide
      simp [hkeys, calls]
      tauto
  have h := one_line_each (List.map toLower) (by decide) calls order horder none none none [] [] false
  refine h.2.2.mpr ⟨⟨by decide, by decide⟩, by decide, nofun⟩

/-- A header that is set twice keeps its first value. -/
theorem first_value_stays :
    let calls : List SetHeader := [(ascii "a", some (ascii "1")), (ascii "a", some (ascii "2"))]
    let order (headers : Headers) : List Bytes := [ascii "a"].filter fun key => (headers key).isSome
    requestHeaders (some (ascii "GET")) (some (ascii "/")) (some (ascii "h")) order
        (setHeaders calls) = ascii "GET / HTTP/1.1\r\nhost: h\r\na: 1\r\n\r\n" ∧
      ¬ OneLineEach id calls (requestLines (some (ascii "h")) order (setHeaders calls)) := by
  intro calls order
  refine ⟨by decide, ?_⟩
  intro h
  obtain ⟨l, hl, -, hname, hvalue⟩ := h.latest (ascii "a") (some (ascii "2")) (by decide)
  have hlines : requestLines (some (ascii "h")) order (setHeaders calls) =
      [⟨ascii "host", ascii "h", true⟩, ⟨ascii "a", ascii "1", false⟩] := by decide
  rw [hlines] at hl
  revert l
  decide

end Libnodecc.Http

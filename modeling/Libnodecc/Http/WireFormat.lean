import Libnodecc.Framework.MessageReader
import Libnodecc.Http.BodyFraming

namespace Libnodecc.Http

open Wire

def isToken (ch : UInt8) : Bool :=
  0x30 ≤ ch && ch ≤ 0x39 || 0x41 ≤ ch && ch ≤ 0x5a || 0x61 ≤ ch && ch ≤ 0x7a ||
    (ascii "!#$%&'*+-.^_").contains ch || ch == 0x60 || ch == 0x7c || ch == 0x7e

def isColon (ch : UInt8) : Bool := ch == 0x3a

/-- A field line: a name, a colon and a value, with optional blanks around the value. -/
def readField (line : Bytes) : Option (Bytes × Bytes) :=
  let name := line.takeWhile fun ch => !isColon ch
  match line.dropWhile fun ch => !isColon ch with
  | [] => none
  | _ :: value => if name ≠ [] ∧ name.all isToken then some (name, trim value) else none

def fieldCodings (fields : List (Bytes × Bytes)) : List Bytes :=
  (fields.filter fun f => Spells f.1 (ascii "transfer-encoding")).flatMap fun f => codings f.2

def fieldLengths (fields : List (Bytes × Bytes)) : List (Option Nat) :=
  (fields.filter fun f => Spells f.1 (ascii "content-length")).map fun f => Buf.decimal f.2

/-- The end of the body, where the fields tell it: a transfer coding overrides a length. -/
def delimited (fields : List (Bytes × Bytes)) : Option BodyEnd :=
  if fieldCodings fields ≠ [] then
    if EndsChunked (fieldCodings fields) then some .chunked else none
  else
    match fieldLengths fields with
    | some n :: rest => if ∀ m ∈ rest, m = some n then some (.length n) else none
    | _ => none

def bodiless (statusLine : Bytes) : Bool :=
  let code := (statusLine.drop 9).take 3
  code.head? == some 0x31 || code == ascii "204" || code == ascii "304"

/-- How a client reads a response; one that ends with its connection is not read. -/
def responseFormat : Format where
  field := readField
  bodyEnd head := if bodiless head.start then some (.length 0) else delimited head.fields

/-- How a server reads a request: without any framing there is no body. -/
def requestFormat : Format where
  field := readField
  bodyEnd head :=
    if fieldCodings head.fields = [] ∧ fieldLengths head.fields = [] then some (.length 0)
    else delimited head.fields

/-- A line of the library; some are left out where the header is set. -/
structure OwnLine where
  line : HeaderLine
  unlessSet : Bool

/-- A start line, and the lines of the library around the headers that were set. With `bodiless`,
the start line tells that there is no body. -/
structure Opening where
  start : Bytes
  before : List OwnLine
  after : List OwnLine
  bodiless : Bool

def ownLines (own : List OwnLine) (headers : Headers) : List HeaderLine :=
  (own.filter fun l => !(l.unlessSet && (headers l.line.name).isSome)).map OwnLine.line

namespace Opening

def lines (o : Opening) (order : Headers → List Bytes) (headers : Headers) : List HeaderLine :=
  ownLines o.before headers ++ setLines (order headers) headers ++ ownLines o.after headers

def block (o : Opening) (order : Headers → List Bytes) (headers : Headers) : Bytes :=
  o.start ++ crlf ++ (o.lines order headers).flatMap HeaderLine.text ++ crlf

end Opening

def HeaderLine.field (l : HeaderLine) : Bytes × Bytes := (l.name, l.value)

/-- A field that can be sent: its name a token, its value on one line and without blanks around
it. -/
structure FieldOk (name value : Bytes) : Prop where
  name_ne : name ≠ []
  token : ∀ ch ∈ name, isToken ch = true
  unbroken : Unbroken value
  trimmed : trim value = value

instance (name value : Bytes) : Decidable (FieldOk name value) :=
  decidable_of_iff (name ≠ [] ∧ name.all isToken ∧ Unbroken value ∧ trim value = value)
    ⟨fun ⟨a, b, c, d⟩ => ⟨a, List.all_eq_true.mp b, c, d⟩,
      fun ⟨a, b, c, d⟩ => ⟨a, List.all_eq_true.mpr b, c, d⟩⟩

/-- A line that can be sent and says nothing about the body. -/
structure HeaderLine.Plain (l : HeaderLine) : Prop where
  ok : FieldOk l.name l.value
  coding : ¬Spells l.name (ascii "transfer-encoding")
  length : ¬Spells l.name (ascii "content-length")

instance (l : HeaderLine) : Decidable l.Plain :=
  decidable_of_iff (FieldOk l.name l.value ∧ ¬Spells l.name (ascii "transfer-encoding") ∧
    ¬Spells l.name (ascii "content-length")) ⟨fun ⟨a, b, c⟩ => ⟨a, b, c⟩, fun ⟨a, b, c⟩ => ⟨a, b, c⟩⟩

/-- An opening that `format` reads, and that leaves the framing to the headers. -/
structure Opening.ReadBy (o : Opening) (format : Format) : Prop where
  start : Unbroken o.start
  own : ∀ l ∈ o.before ++ o.after, l.line.Plain
  distinct : ((o.before ++ o.after).map fun l => l.line.name).Nodup
  field : format.field = readField
  bodyEnd : ∀ fields e, delimited fields = some e →
    format.bodyEnd ⟨o.start, fields⟩ = some (if o.bodiless then .length 0 else e)

theorem isToken_plain (ch : UInt8) (h : isToken ch = true) :
    isColon ch = false ∧ ch ≠ 13 ∧ ch ≠ 10 := by
  refine ⟨?_, ?_, ?_⟩
  · by_contra hcolon
    have heq : ch = 0x3a := by simpa [isColon] using hcolon
    subst heq
    revert h
    decide
  · rintro rfl
    revert h
    decide
  · rintro rfl
    revert h
    decide

theorem trim_blank (value : Bytes) : trim (0x20 :: value) = trim value := rfl

theorem trim_edges (bs : Bytes) (hfirst : ∀ ch, bs.head? = some ch → isOws ch = false)
    (hlast : ∀ ch, bs.getLast? = some ch → isOws ch = false) : trim bs = bs := by
  have hkeep (cs : Bytes) (hcs : ∀ ch, cs.head? = some ch → isOws ch = false) :
      cs.dropWhile isOws = cs := by
    cases cs with
    | nil => rfl
    | cons ch cs => exact List.dropWhile_cons_of_neg (by simp [hcs ch rfl])
  have hback : bs.reverse.dropWhile isOws = bs.reverse := by
    apply hkeep
    intro ch hch
    rw [List.head?_reverse] at hch
    exact hlast ch hch
  rw [trim, hkeep bs hfirst, hback, List.reverse_reverse]

theorem isOws_visible (ch : UInt8) (h : 0x21 ≤ ch) : isOws ch = false := by
  by_contra hows
  simp only [isOws, Bool.not_eq_false, Bool.or_eq_true, beq_iff_eq] at hows
  rcases hows with rfl | rfl
  · exact absurd h (by decide)
  · exact absurd h (by decide)

/-- A field is read back from its line. -/
theorem fieldOk_reads (format : Format) (hformat : format.field = readField) (f : Bytes × Bytes)
    (h : FieldOk f.1 f.2) :
    Reader.Reads format (fun f => f.1 ++ ascii ": " ++ f.2) f := by
  obtain ⟨name, value⟩ := f
  have hsep : ascii ": " = [0x3a, 0x20] := by decide
  have hname (ch : UInt8) (hch : ch ∈ name) : (!isColon ch) = true := by
    rw [(isToken_plain ch (h.token ch hch)).1]
    rfl
  have hline : name ++ ascii ": " ++ value = name ++ 0x3a :: 0x20 :: value := by
    rw [hsep, List.append_assoc]
    rfl
  refine ⟨?_, ?_, ?_⟩
  · rw [hline]
    intro b hb
    rcases List.mem_append.mp hb with hb | hb
    · exact (isToken_plain b (h.token b hb)).2
    · rcases List.mem_cons.mp hb with rfl | hb
      · decide
      · rcases List.mem_cons.mp hb with rfl | hb
        · decide
        · exact h.unbroken b hb
  · rw [hline]
    exact List.append_ne_nil_of_left_ne_nil h.name_ne _
  · have htake : (name ++ 0x3a :: 0x20 :: value).takeWhile (fun ch => !isColon ch) = name := by
      rw [List.takeWhile_append_of_pos hname, List.takeWhile_cons_of_neg (by decide),
        List.append_nil]
    have hdrop : (name ++ 0x3a :: 0x20 :: value).dropWhile (fun ch => !isColon ch) =
        0x3a :: 0x20 :: value := by
      rw [List.dropWhile_append_of_pos hname, List.dropWhile_cons_of_neg (by decide)]
    have hok : name ≠ [] ∧ name.all isToken = true := ⟨h.name_ne, List.all_eq_true.mpr h.token⟩
    change format.field (name ++ ascii ": " ++ value) = some (name, value)
    rw [hformat, hline, readField, htake, hdrop]
    simp only [if_pos hok, trim_blank, h.trimmed]

theorem ownLines_plain (own : List OwnLine) (headers : Headers)
    (h : ∀ l ∈ own, l.line.Plain) : ∀ l ∈ ownLines own headers, l.Plain := by
  intro l hl
  obtain ⟨x, hx, rfl⟩ := List.mem_map.mp hl
  exact h x (List.mem_of_mem_filter hx)

/-- A block of fields that can be sent is read up to its end. -/
theorem run_block (format : Format) (o : Opening) (ho : o.ReadBy format)
    (order : Headers → List Bytes) (headers : Headers)
    (hset : ∀ key ∈ order headers, FieldOk key (headerValue headers key)) :
    run (Reader.step format) (.start []) (o.block order headers) =
      (format.bodyEnd ⟨o.start, (o.lines order headers).map HeaderLine.field⟩).map
        (Reader.enter ⟨o.start, (o.lines order headers).map HeaderLine.field⟩) := by
  have htext : (o.lines order headers).flatMap HeaderLine.text =
      ((o.lines order headers).map HeaderLine.field).flatMap fun f =>
        f.1 ++ ascii ": " ++ f.2 ++ [13, 10] := by
    rw [List.flatMap_map]
    rfl
  have hcrlf : crlf = [13, 10] := by decide
  rw [Opening.block, htext, hcrlf]
  refine Reader.run_head format (fun f => f.1 ++ ascii ": " ++ f.2) o.start _ ho.start ?_
  intro f hf
  obtain ⟨l, hl, rfl⟩ := List.mem_map.mp hf
  refine fieldOk_reads format ho.field l.field ?_
  simp only [Opening.lines, List.mem_append] at hl
  rcases hl with (hl | hl) | hl
  · exact (ownLines_plain _ _ (fun x hx => ho.own x (List.mem_append_left _ hx)) l hl).ok
  · obtain ⟨key, hkey, rfl⟩ := List.mem_map.mp hl
    exact hset key hkey
  · exact (ownLines_plain _ _ (fun x hx => ho.own x (List.mem_append_right _ hx)) l hl).ok

/-- The headers say at most one thing about the body, and say it the way the library reads it. -/
structure FramesBody (headers : Headers) : Prop where
  coding : ∀ key value, Spells key (ascii "transfer-encoding") → headers key = some value →
    key = ascii "transfer-encoding" ∧ value = some (ascii "chunked")
  length : ∀ key value, Spells key (ascii "content-length") → headers key = some value →
    key = ascii "content-length" ∧ (Buf.decimal value.bytes).isSome
  either : (headers (ascii "content-length")).isSome → headers (ascii "transfer-encoding") = none

section
variable {format : Format} {o : Opening} {order : Headers → List Bytes} {headers : Headers}

/-- Of the lines, only those of the headers that were set can spell such a name. -/
theorem filter_lines (ho : o.ReadBy format) (name : Bytes)
    (hown : ∀ l : HeaderLine, l.Plain → ¬Spells l.name name) :
    ((o.lines order headers).map HeaderLine.field).filter (fun f => Spells f.1 name) =
      ((order headers).filter fun key => Spells key name).map fun key =>
        (key, headerValue headers key) := by
  have hnil (own : List OwnLine) (hown' : ∀ l ∈ own, l.line.Plain) :
      ((ownLines own headers).map HeaderLine.field).filter (fun f => Spells f.1 name) = [] := by
    apply List.filter_eq_nil_iff.mpr
    intro f hf
    obtain ⟨l, hl, rfl⟩ := List.mem_map.mp hf
    exact fun hspells => hown l (ownLines_plain own headers hown' l hl) (of_decide_eq_true hspells)
  have hset : ((setLines (order headers) headers).map HeaderLine.field) =
      (order headers).map fun key => (key, headerValue headers key) := by
    rw [setLines, List.map_map]
    rfl
  rw [Opening.lines, List.map_append, List.map_append, List.filter_append, List.filter_append,
    hnil _ (fun l hl => ho.own l (List.mem_append_left _ hl)),
    hnil _ (fun l hl => ho.own l (List.mem_append_right _ hl)), hset, List.nil_append,
    List.append_nil, List.filter_map]
  rfl

/-- The one header that is spelled like `name`, if there is one. -/
theorem filter_keys (horder : Traverses (order headers) headers) (name : Bytes)
    (hname : Spells name name)
    (honly : ∀ key, Spells key name → (headers key).isSome → key = name) :
    ((order headers).filter fun key => Spells key name) =
      if (headers name).isSome then [name] else [] := by
  have hunique := filter_unique (fun key => decide (Spells key name)) horder.nodup
    fun key hkey other hother hq hqo =>
      (honly key (of_decide_eq_true hq) ((horder.mem key).mp hkey)).trans
        (honly other (of_decide_eq_true hqo) ((horder.mem other).mp hother)).symm
  rcases hunique with hnil | ⟨key, hkey, hq, hone⟩
  · have hnone : ¬(headers name).isSome := by
      intro hsome
      have hmem : name ∈ (order headers).filter fun key => Spells key name :=
        List.mem_filter.mpr ⟨(horder.mem name).mpr hsome, decide_eq_true hname⟩
      rw [hnil] at hmem
      cases hmem
    rw [hnil, if_neg hnone]
  · have hset := (horder.mem key).mp hkey
    obtain rfl := honly key (of_decide_eq_true hq) hset
    rw [hone, if_pos hset]

theorem fieldCodings_lines (ho : o.ReadBy format) (horder : Traverses (order headers) headers)
    (hf : FramesBody headers) :
    fieldCodings ((o.lines order headers).map HeaderLine.field) =
      if (headers (ascii "transfer-encoding")).isSome then [ascii "chunked"] else [] := by
  rw [fieldCodings, filter_lines ho _ fun l hl => hl.coding, filter_keys horder _ (by decide)]
  · by_cases hset : (headers (ascii "transfer-encoding")).isSome
    · obtain ⟨value, hvalue⟩ := Option.isSome_iff_exists.mp hset
      obtain ⟨-, rfl⟩ := hf.coding _ value (by decide) hvalue
      have hcodings : codings (ascii "chunked") = [ascii "chunked"] := by decide
      rw [if_pos hset, if_pos hset, List.map_singleton, List.flatMap_singleton, headerValue, hvalue]
      exact hcodings
    · rw [if_neg hset, if_neg hset]
      rfl
  · intro key hkey hset
    obtain ⟨value, hvalue⟩ := Option.isSome_iff_exists.mp hset
    exact (hf.coding key value hkey hvalue).1

theorem fieldLengths_lines (ho : o.ReadBy format) (horder : Traverses (order headers) headers)
    (hf : FramesBody headers) :
    fieldLengths ((o.lines order headers).map HeaderLine.field) =
      if (headers (ascii "content-length")).isSome then
        [Buf.decimal (headerValue headers (ascii "content-length"))]
      else [] := by
  rw [fieldLengths, filter_lines ho _ fun l hl => hl.length, filter_keys horder _ (by decide)]
  · by_cases hset : (headers (ascii "content-length")).isSome
    · rw [if_pos hset, if_pos hset]
      rfl
    · rw [if_neg hset, if_neg hset]
      rfl
  · intro key hkey hset
    obtain ⟨value, hvalue⟩ := Option.isSome_iff_exists.mp hset
    exact (hf.length key value hkey hvalue).1

theorem delimited_chunked (ho : o.ReadBy format) (horder : Traverses (order headers) headers)
    (hf : FramesBody headers) (hset : (headers (ascii "transfer-encoding")).isSome) :
    delimited ((o.lines order headers).map HeaderLine.field) = some .chunked := by
  have hends : EndsChunked [ascii "chunked"] := rfl
  rw [delimited, fieldCodings_lines ho horder hf, if_pos hset, if_pos (by simp), if_pos hends]

theorem delimited_length (ho : o.ReadBy format) (horder : Traverses (order headers) headers)
    (hf : FramesBody headers) (value : Buf) (n : Nat)
    (hvalue : headers (ascii "content-length") = some value)
    (hn : Buf.decimal value.bytes = some n) :
    delimited ((o.lines order headers).map HeaderLine.field) = some (.length n) := by
  have hset : (headers (ascii "content-length")).isSome := by rw [hvalue]; rfl
  have hcoding := hf.either hset
  have hlength : Buf.decimal (headerValue headers (ascii "content-length")) = some n := by
    rw [headerValue, hvalue]
    exact hn
  rw [delimited, fieldCodings_lines ho horder hf, hcoding, if_neg (by simp),
    fieldLengths_lines ho horder hf, if_pos hset, hlength]
  simp

end

end Libnodecc.Http

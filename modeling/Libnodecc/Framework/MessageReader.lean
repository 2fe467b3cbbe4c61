import Libnodecc.Framework.ChunkedCoding

namespace Libnodecc.Wire

/-- A start line and the fields behind it, each a name and a value. -/
structure Head where
  start : List UInt8
  fields : List (List UInt8 × List UInt8)
  deriving DecidableEq

inductive BodyEnd where
  | chunked
  | length (n : Nat)
  deriving DecidableEq

/-- What a field line says, and what a head says about the body. -/
structure Format where
  field : List UInt8 → Option (List UInt8 × List UInt8)
  bodyEnd : Head → Option BodyEnd

/-- A reader of one message, by what it expects next. -/
inductive Reader where
  | start (line : List UInt8)
  | fields (head : Head) (line : List UInt8)
  | chunked (head : Head) (body : Chunked.Decoder)
  | counted (head : Head) (left : Nat) (body : List UInt8)
  | done (head : Head) (body : List UInt8)
  deriving DecidableEq

/-- A line with one more byte, and whether it is over. Line breaks are CR LF and nothing else. -/
def endLine (line : List UInt8) (b : UInt8) : Option (List UInt8 × Bool) :=
  if line.getLast? = some 13 then if b = 10 then some (line.dropLast, true) else none
  else if b = 10 then none
  else some (line ++ [b], false)

def Unbroken (line : List UInt8) : Prop := ∀ b ∈ line, b ≠ 13 ∧ b ≠ 10

instance (line : List UInt8) : Decidable (Unbroken line) :=
  List.decidableBAll (fun b => b ≠ 13 ∧ b ≠ 10) line

namespace Reader

/-- With `left` bytes of the body to come. -/
def awaiting (head : Head) (left : Nat) (body : List UInt8) : Reader :=
  if left = 0 then done head body else counted head left body

/-- With a chunked body, decoded up to `d`. -/
def coded (head : Head) (d : Chunked.Decoder) : Reader :=
  if d.phase = .done then done head d.body else chunked head d

def enter (head : Head) : BodyEnd → Reader
  | .chunked => coded head (.start [])
  | .length n => awaiting head n []

def nextLine (format : Format) (head : Head) (line : List UInt8) : Option Reader :=
  if line = [] then (format.bodyEnd head).map (enter head)
  else (format.field line).map fun f => fields { head with fields := head.fields ++ [f] } []

def step (format : Format) : Reader → UInt8 → Option Reader
  | start line, b =>
    (endLine line b).map fun (line, ended) => if ended then fields ⟨line, []⟩ [] else start line
  | fields head line, b =>
    (endLine line b).bind fun (line, ended) =>
      if ended then nextLine format head line else some (fields head line)
  | chunked head d, b => (d.step b).map (coded head)
  | counted head left body, b => some (awaiting head (left - 1) (body ++ [b]))
  | done _ _, _ => none

end Reader

theorem endLine_byte (line : List UInt8) (b : UInt8) (h : Unbroken line) (hb : b ≠ 10) :
    endLine line b = some (line ++ [b], false) := by
  have hlast : line.getLast? ≠ some 13 := by
    intro hcr
    exact (h 13 (List.mem_of_getLast? hcr)).1 rfl
  rw [endLine, if_neg hlast, if_neg hb]

theorem endLine_feed (line : List UInt8) : endLine (line ++ [13]) 10 = some (line, true) := by
  simp [endLine]

theorem Unbroken.append {line more : List UInt8} (h : Unbroken line) (hmore : Unbroken more) :
    Unbroken (line ++ more) := by
  intro b hb
  rcases List.mem_append.mp hb with hb | hb
  · exact h b hb
  · exact hmore b hb

namespace Reader

variable (format : Format)

theorem run_startLine (line more : List UInt8) (h : Unbroken line) (hmore : Unbroken more) :
    run (step format) (start line) (more ++ [13, 10]) = some (fields ⟨line ++ more, []⟩ []) := by
  induction more generalizing line with
  | nil =>
    have hcr := endLine_byte line 13 h (by decide)
    simp [step, hcr, endLine_feed]
  | cons b more ih =>
    have hb := hmore b List.mem_cons_self
    have hstep := endLine_byte line b h hb.2
    have hnext : Unbroken (line ++ [b]) := h.append (by simpa [Unbroken] using hb)
    have ih := ih (line ++ [b]) hnext fun c hc => hmore c (List.mem_cons_of_mem b hc)
    rw [List.cons_append, run_cons]
    simp only [step, hstep, Option.map_some, Option.bind_some, Bool.false_eq_true, if_false, ih]
    rw [List.append_assoc, List.singleton_append]

theorem run_fieldLine (head : Head) (line more : List UInt8) (h : Unbroken line)
    (hmore : Unbroken more) :
    run (step format) (fields head line) (more ++ [13, 10]) =
      nextLine format head (line ++ more) := by
  induction more generalizing line with
  | nil =>
    have hcr := endLine_byte line 13 h (by decide)
    simp [step, hcr, endLine_feed]
  | cons b more ih =>
    have hb := hmore b List.mem_cons_self
    have hstep := endLine_byte line b h hb.2
    have hnext : Unbroken (line ++ [b]) := h.append (by simpa [Unbroken] using hb)
    have ih := ih (line ++ [b]) hnext fun c hc => hmore c (List.mem_cons_of_mem b hc)
    rw [List.cons_append, run_cons]
    simp only [step, hstep, Option.bind_some, Bool.false_eq_true, if_false, ih]
    rw [List.append_assoc, List.singleton_append]

section
variable (text : List UInt8 × List UInt8 → List UInt8)

/-- A line that is read back as the field it was written for. -/
structure Reads (f : List UInt8 × List UInt8) : Prop where
  unbroken : Unbroken (text f)
  nonempty : text f ≠ []
  field : format.field (text f) = some f

theorem run_fields (head : Head) (fs : List (List UInt8 × List UInt8))
    (h : ∀ f ∈ fs, Reads format text f) :
    run (step format) (fields head []) (fs.flatMap fun f => text f ++ [13, 10]) =
      some (fields { head with fields := head.fields ++ fs } []) := by
  induction fs generalizing head with
  | nil => simp
  | cons f fs ih =>
    have hf := h f List.mem_cons_self
    have hline : run (step format) (fields head []) (text f ++ [13, 10]) =
        some (fields { head with fields := head.fields ++ [f] } []) := by
      rw [run_fieldLine format head [] (text f) (by simp [Unbroken]) hf.unbroken, List.nil_append,
        nextLine, if_neg hf.nonempty, hf.field]
      rfl
    have ih := ih { head with fields := head.fields ++ [f] } fun g hg =>
      h g (List.mem_cons_of_mem f hg)
    rw [List.append_assoc, List.singleton_append] at ih
    exact run_append_eq_some _ _ _ _ _ _ hline ih

/-- A whole head, up to the empty line behind it. -/
theorem run_head (line : List UInt8) (fs : List (List UInt8 × List UInt8)) (hline : Unbroken line)
    (hfs : ∀ f ∈ fs, Reads format text f) :
    run (step format) (start [])
        (line ++ [13, 10] ++ (fs.flatMap fun f => text f ++ [13, 10]) ++ [13, 10]) =
      (format.bodyEnd ⟨line, fs⟩).map (enter ⟨line, fs⟩) := by
  have hstart := run_startLine format [] line (by simp [Unbroken]) hline
  have hfields := run_fields format text ⟨line, []⟩ fs hfs
  have hempty := run_fieldLine format ⟨line, fs⟩ [] [] (by simp [Unbroken]) (by simp [Unbroken])
  rw [List.nil_append] at hstart
  rw [List.nil_append] at hfields
  rw [run_append, run_append_eq_some _ _ _ _ _ _ hstart hfields, Option.bind_some]
  exact hempty

end

theorem run_counted (head : Head) (left : Nat) (body data : List UInt8) (h : data.length ≤ left) :
    run (step format) (awaiting head left body) data =
      some (awaiting head (left - data.length) (body ++ data)) := by
  induction data generalizing left body with
  | nil => simp
  | cons b data ih =>
    rw [List.length_cons] at h
    have hleft : left ≠ 0 := by omega
    have ih := ih (left - 1) (body ++ [b]) (by omega)
    rw [awaiting, if_neg hleft, run_cons]
    change run (step format) (awaiting head (left - 1) (body ++ [b])) data = _
    rw [ih, List.append_assoc, List.singleton_append, List.length_cons, Nat.sub_sub, Nat.add_comm 1]

theorem run_coded (head : Head) (d d' : Chunked.Decoder) (bs : List UInt8)
    (h : run Chunked.Decoder.step d bs = some d') :
    run (step format) (coded head d) bs = some (coded head d') := by
  induction bs generalizing d with
  | nil =>
    cases h
    rfl
  | cons b bs ih =>
    rw [run_cons] at h
    obtain ⟨next, hnext, hrest⟩ := Option.bind_eq_some_iff.mp h
    have hopen : d.phase ≠ .done := by
      intro hdone
      simp [Chunked.Decoder.step, hdone] at hnext
    have hstep : step format (coded head d) b = some (coded head next) := by
      rw [coded, if_neg hopen, step, hnext]
      rfl
    rw [run_cons, hstep, Option.bind_some]
    exact ih next hrest

theorem run_done (head : Head) (body bs : List UInt8) (r : Reader)
    (h : run (step format) (done head body) bs = some r) : bs = [] := by
  cases bs with
  | nil => rfl
  | cons b bs => cases h

/-- Where a message ends is up to its bytes: nothing can follow a whole one. -/
theorem run_prefix (bs more : List UInt8) (head : Head) (body : List UInt8) (r : Reader)
    (h : run (step format) (start []) bs = some (done head body))
    (hmore : run (step format) (start []) (bs ++ more) = some r) : more = [] := by
  rw [run_append, h, Option.bind_some] at hmore
  exact run_done format head body more r hmore

end Reader

end Libnodecc.Wire

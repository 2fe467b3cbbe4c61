import Libnodecc.Http.IncomingMessage
import Mathlib.Data.List.Induction

namespace Libnodecc.Http

/-- A header with its name and its value cut into the pieces the callbacks get. -/
structure DeliveredHeader where
  name : List Bytes
  value : List Bytes
  name_ne : name.flatten ≠ []
  value_ne : value ≠ []

/-- The header as it should end up in `_headers`. -/
def DeliveredHeader.pair (h : DeliveredHeader) : Bytes × Bytes :=
  (h.name.flatten.map toLower, h.value.flatten)

def DeliveredHeader.Whole (h : DeliveredHeader) : Prop := (h.value.filter (· ≠ [])).length = 1

inductive Piece where
  | field (bs : Bytes)
  | value (bs : Bytes)

def Piece.label : Piece → MessageLabel
  | field bs => .onHeaderField bs
  | value bs => .onHeaderValue bs

def DeliveredHeader.pieces (h : DeliveredHeader) : List Piece :=
  h.name.map .field ++ h.value.map .value

def deliver (hs : List DeliveredHeader) (parser : ParserInfo) : List MessageLabel :=
  (hs.flatMap DeliveredHeader.pieces).map Piece.label ++ [.onHeadersComplete parser]

/-- Callbacks that run `_add_header_partials`. -/
def MessageLabel.flushes : MessageLabel → Bool
  | onHeaderField _ | onHeaderValue _ | onHeadersComplete _ => true
  | _ => false

/-- The pairs that `_add_header_partials` puts into `_headers`, in order. -/
def IncomingMessage.emplaced (lib : HttpParser) :
    IncomingMessage → List MessageLabel → List (Bytes × Bytes)
  | _, [] => []
  | m, l :: ls =>
    (if l.flushes then m.pendingHeader.toList else []) ++ emplaced lib (m.step lib l) ls

/-- The map a header section stands for: the values of a repeated name, joined in order. -/
def joinedHeaders (hs : List (Bytes × Bytes)) (key : Bytes) : Option Bytes :=
  match (hs.filter (·.1 = key)).map Prod.snd with
  | [] => none
  | vs => some ((ascii ", ").intercalate vs)

structure Partials where
  field : Bytes
  value : Bytes
  deriving DecidableEq

namespace Partials

def Pending (s : Partials) : Prop := s.field ≠ [] ∧ s.value ≠ []

instance (s : Partials) : Decidable s.Pending := by unfold Pending; infer_instance

def pair (s : Partials) : Bytes × Bytes := (s.field.map toLower, s.value)

def add (s : Partials) : Piece → Partials
  | .field bs => { s with field := s.field ++ bs }
  | .value bs => { s with value := s.value ++ bs }

def assemble : Partials → List Piece → List (Bytes × Bytes)
  | s, [] => if s.Pending then [s.pair] else []
  | s, c :: cs =>
    if s.Pending then s.pair :: assemble (add ⟨[], []⟩ c) cs else assemble (s.add c) cs

theorem assemble_pending (s : Partials) (cs : List Piece) (h : s.Pending) :
    s.assemble cs = s.pair :: assemble ⟨[], []⟩ cs := by
  have hidle : ¬Pending ⟨[], []⟩ := by simp [Pending]
  cases cs with
  | nil => rw [assemble, if_pos h, assemble, if_neg hidle]
  | cons c cs => rw [assemble, if_pos h, assemble, if_neg hidle]

theorem assemble_idle (s : Partials) (c : Piece) (cs : List Piece) (h : ¬s.Pending) :
    s.assemble (c :: cs) = (s.add c).assemble cs := by
  rw [assemble, if_neg h]

/-- Every pair that is flushed has a value. -/
theorem value_ne_of_assembled (s : Partials) (cs : List Piece) :
    ∀ x ∈ s.assemble cs, x.2 ≠ [] := by
  induction cs generalizing s with
  | nil =>
    intro x hx
    by_cases h : s.Pending
    · rw [assemble, if_pos h, List.mem_singleton] at hx
      subst hx
      exact h.2
    · simp [assemble, h] at hx
  | cons c cs ih =>
    intro x hx
    by_cases h : s.Pending
    · rw [assemble, if_pos h] at hx
      rcases List.mem_cons.mp hx with rfl | hx
      · exact h.2
      · exact ih _ x hx
    · rw [assemble_idle s c cs h] at hx
      exact ih _ x hx

theorem assemble_name (ns : List Bytes) (bs : Bytes) (cs : List Piece) :
    assemble ⟨bs, []⟩ (ns.map .field ++ cs) = assemble ⟨bs ++ ns.flatten, []⟩ cs := by
  induction ns generalizing bs with
  | nil => simp
  | cons n ns ih =>
    rw [List.map_cons, List.cons_append, assemble_idle _ _ _ (by simp [Pending])]
    simp only [add, List.flatten_cons]
    rw [ih, List.append_assoc]

/-- Of the pieces of a value, the first that is not empty is taken for the whole. -/
theorem assemble_value (vs : List Bytes) (name v : Bytes) (more : List Bytes) (cs : List Piece)
    (hname : name ≠ []) (hvs : vs.filter (· ≠ []) = v :: more) :
    ∃ ws : List Bytes, ws.filter (· ≠ []) = more ∧ assemble ⟨name, []⟩ (vs.map .value ++ cs) =
      (name.map toLower, v) :: assemble ⟨[], []⟩ (ws.map .value ++ cs) := by
  induction vs with
  | nil => simp at hvs
  | cons w ws ih =>
    rw [List.map_cons, List.cons_append, assemble_idle _ _ _ (by simp [Pending])]
    by_cases hw : w = []
    · subst hw
      exact ih (by simpa using hvs)
    · rw [List.filter_cons_of_pos (by simpa using hw)] at hvs
      obtain ⟨rfl, hmore⟩ := List.cons.inj hvs
      refine ⟨ws, hmore, ?_⟩
      have hp : (add ⟨name, []⟩ (.value w)).Pending := ⟨hname, by simpa [add] using hw⟩
      rw [assemble_pending _ _ hp]
      simp [pair, add]

theorem assemble_empty (ws : List Bytes) (s : Partials) (cs : List Piece) (hs : ¬s.Pending)
    (h : ws.filter (· ≠ []) = []) : s.assemble (ws.map .value ++ cs) = s.assemble cs := by
  induction ws with
  | nil => rfl
  | cons w ws ih =>
    have hw : w = [] := by
      by_contra hne
      rw [List.filter_cons_of_pos (by simpa using hne)] at h
      cases h
    subst hw
    have hadd : s.add (.value []) = s := by simp [add]
    rw [List.map_cons, List.cons_append, assemble_idle _ _ _ hs, hadd]
    exact ih (by simpa using h)

end Partials

theorem flatten_filter_ne_nil (vs : List Bytes) : (vs.filter (· ≠ [])).flatten = vs.flatten := by
  induction vs with
  | nil => rfl
  | cons v vs ih =>
    by_cases hv : v = []
    · subst hv
      simpa using ih
    · rw [List.filter_cons_of_pos (by simpa using hv), List.flatten_cons, List.flatten_cons, ih]

/-- One header: it is assembled exactly when its value is whole. -/
theorem assemble_header (h : DeliveredHeader) (cs : List Piece) (rest : List (Bytes × Bytes)) :
    Partials.assemble ⟨[], []⟩ (h.pieces ++ cs) = h.pair :: rest ↔
      h.Whole ∧ Partials.assemble ⟨[], []⟩ cs = rest := by
  have hname := h.name_ne
  rw [DeliveredHeader.pieces, List.append_assoc, Partials.assemble_name, List.nil_append]
  have hflat := flatten_filter_ne_nil h.value
  rw [DeliveredHeader.Whole]
  cases hvs : h.value.filter (· ≠ []) with
  | nil =>
    -- an empty value is never flushed
    have hval : h.value.flatten = [] := by rw [← hflat, hvs]; rfl
    constructor
    · intro he
      have hne := Partials.value_ne_of_assembled _ _ h.pair (by rw [he]; simp)
      exact absurd hval hne
    · rintro ⟨hw, -⟩
      cases hw
  | cons v more =>
    obtain ⟨ws, hws, ha⟩ := Partials.assemble_value h.value h.name.flatten v more cs hname hvs
    rw [ha, List.cons.injEq, Prod.mk.injEq]
    have hval : h.value.flatten = v ++ more.flatten := by rw [← hflat, hvs]; rfl
    cases more with
    | nil =>
      rw [Partials.assemble_empty ws _ cs (by simp [Partials.Pending]) hws]
      simp [DeliveredHeader.pair, hval]
    | cons w more =>
      -- the second piece is missing from the pair
      have hw : w ≠ [] := by
        have hm : w ∈ h.value.filter (· ≠ []) := by rw [hvs]; simp
        simpa using (List.mem_filter.mp hm).2
      constructor
      · rintro ⟨⟨-, he⟩, -⟩
        rw [DeliveredHeader.pair, hval] at he
        have hlen := congrArg List.length he
        have hpos : 0 < w.length := List.length_pos_iff.mpr hw
        rw [List.flatten_cons, List.length_append, List.length_append] at hlen
        omega
      · rintro ⟨hwhole, -⟩
        simp at hwhole

theorem assemble_section (hs : List DeliveredHeader) :
    Partials.assemble ⟨[], []⟩ (hs.flatMap DeliveredHeader.pieces) = hs.map DeliveredHeader.pair ↔
      ∀ h ∈ hs, h.Whole := by
  induction hs with
  | nil => simp [Partials.assemble, Partials.Pending]
  | cons h hs ih =>
    rw [List.flatMap_cons, List.map_cons, assemble_header, ih]
    simp

section
variable (lib : HttpParser)

theorem pendingHeader_eq (m : IncomingMessage) (s : Partials)
    (hf : m.partialHeaderField = .view s.field) (hv : m.partialHeaderValue = .view s.value) :
    m.pendingHeader = if s.Pending then some s.pair else none := by
  by_cases h1 : s.field = [] <;> by_cases h2 : s.value = [] <;>
    simp [IncomingMessage.pendingHeader, hf, hv, Buf.view, Partials.Pending, Partials.pair, h1, h2]

/-- A callback flushes the partial buffers and adds its piece. -/
theorem step_piece (m : IncomingMessage) (s : Partials) (c : Piece)
    (hf : m.partialHeaderField = .view s.field) (hv : m.partialHeaderValue = .view s.value) :
    let t := if s.Pending then Partials.add ⟨[], []⟩ c else s.add c
    (m.step lib c.label).partialHeaderField = .view t.field ∧
      (m.step lib c.label).partialHeaderValue = .view t.value := by
  have hp := pendingHeader_eq m s hf hv
  cases c with
  | field bs =>
    by_cases h : s.Pending <;>
      simp [Piece.label, IncomingMessage.step, IncomingMessage.parserOnHeaderField,
        IncomingMessage.addHeaderPartials, hp, h, hf, hv, Partials.add, Buf.append_view,
        Buf.view_ne_some_nil]
  | value bs =>
    by_cases h : s.Pending <;>
      simp [Piece.label, IncomingMessage.step, IncomingMessage.parserOnHeaderValue,
        IncomingMessage.addHeaderPartials, hp, h, hf, hv, Partials.add, Buf.append_view,
        Buf.view_ne_some_nil]

theorem emplaced_eq_assemble (cs : List Piece) (m : IncomingMessage) (s : Partials)
    (parser : ParserInfo) (hf : m.partialHeaderField = .view s.field)
    (hv : m.partialHeaderValue = .view s.value) :
    m.emplaced lib (cs.map Piece.label ++ [.onHeadersComplete parser]) = s.assemble cs := by
  induction cs generalizing m s with
  | nil =>
    simp only [List.map_nil, List.nil_append, IncomingMessage.emplaced, MessageLabel.flushes,
      pendingHeader_eq m s hf hv, Partials.assemble]
    split_ifs <;> rfl
  | cons c cs ih =>
    obtain ⟨hf', hv'⟩ := step_piece lib m s c hf hv
    have hflush : c.label.flushes = true := by cases c <;> rfl
    rw [List.map_cons, List.cons_append, IncomingMessage.emplaced, hflush, if_pos rfl,
      ih _ _ hf' hv', pendingHeader_eq m s hf hv, Partials.assemble]
    split_ifs <;> rfl

/-- `_headers` is what the flushed pairs make of it. -/
theorem headers_eq_foldl (ls : List MessageLabel) (m : IncomingMessage)
    (hls : ∀ l ∈ ls, l.flushes = true) :
    (m.after lib ls).headers =
      (m.emplaced lib ls).foldl (fun hs x => emplaceHeader hs x.1 x.2) m.headers := by
  induction ls generalizing m with
  | nil => rfl
  | cons l ls ih =>
    have hl := hls l (by simp)
    have hstep : (m.step lib l).headers =
        m.pendingHeader.toList.foldl (fun hs x => emplaceHeader hs x.1 x.2) m.headers := by
      have hadd : m.addHeaderPartials.headers =
          m.pendingHeader.toList.foldl (fun hs x => emplaceHeader hs x.1 x.2) m.headers := by
        unfold IncomingMessage.addHeaderPartials
        cases m.pendingHeader <;> rfl
      rw [← hadd]
      cases l with
      | onHeaderField bs => rfl
      | onHeaderValue bs => rfl
      | onHeadersComplete parser =>
        simp only [IncomingMessage.step, IncomingMessage.parserOnHeadersComplete]
        split <;> rfl
      | onUrl bs => cases hl
      | onBody bs => cases hl
      | onMessageComplete => cases hl
      | access a => cases hl
    have hrest := ih (m.step lib l) (fun x hx => hls x (by simp [hx]))
    rw [IncomingMessage.after, List.foldl_cons, IncomingMessage.emplaced, hl, if_pos rfl,
      List.foldl_append, ← hstep]
    exact hrest

end

theorem intercalate_concat (sep : Bytes) (vs : List Bytes) (v : Bytes) (h : vs ≠ []) :
    sep.intercalate (vs ++ [v]) = sep.intercalate vs ++ sep ++ v := by
  induction vs with
  | nil => exact absurd rfl h
  | cons w vs ih =>
    cases vs with
    | nil => simp [List.intercalate_cons_cons, List.intercalate_singleton]
    | cons u vs =>
      have ih := ih (by simp)
      simp only [List.cons_append, List.intercalate_cons_cons] at ih ⊢
      rw [ih]
      simp only [List.append_assoc]

/-- `emplace` and `append` build the joined map, as long as no value is empty. -/
theorem foldl_emplaceHeader (hs : List (Bytes × Bytes)) (hne : ∀ x ∈ hs, x.2 ≠ []) :
    hs.foldl (fun h x => emplaceHeader h x.1 x.2) (fun _ => none) = joinedHeaders hs := by
  induction hs using List.reverseRecOn with
  | nil => rfl
  | append_singleton hs x ih =>
    obtain ⟨name, value⟩ := x
    have ih := ih (fun y hy => hne y (by simp [hy]))
    have hvalue : value ≠ [] := hne (name, value) (by simp)
    rw [List.foldl_append, ih]
    funext key
    by_cases hk : key = name
    · subst hk
      have hfilter : ((hs ++ [(key, value)]).filter (·.1 = key)).map Prod.snd =
          (hs.filter (·.1 = key)).map Prod.snd ++ [value] := by simp
      cases hvs : (hs.filter (·.1 = key)).map Prod.snd with
      | nil =>
        have hold : joinedHeaders hs key = none := by simp only [joinedHeaders, hvs]
        have hnew : joinedHeaders (hs ++ [(key, value)]) key = some value := by
          simp only [joinedHeaders, hfilter, hvs, List.nil_append, List.intercalate_singleton]
        simp only [List.foldl_cons, List.foldl_nil, emplaceHeader, hold, Function.update_self, hnew]
      | cons v vs =>
        have hold : joinedHeaders hs key = some ((ascii ", ").intercalate (v :: vs)) := by
          simp only [joinedHeaders, hvs]
        have hnew : joinedHeaders (hs ++ [(key, value)]) key =
            some ((ascii ", ").intercalate (v :: vs) ++ ascii ", " ++ value) := by
          rw [← intercalate_concat _ _ _ (by simp)]
          simp only [joinedHeaders, hfilter, hvs, List.cons_append]
        simp only [List.foldl_cons, List.foldl_nil, emplaceHeader, hold, Function.update_self, hnew]
        rw [appendHeader_eq _ _ hvalue]
    · have hfilter : ((hs ++ [(name, value)]).filter (·.1 = key)) = hs.filter (·.1 = key) := by
        simp [Ne.symm hk]
      have hsame : joinedHeaders (hs ++ [(name, value)]) key = joinedHeaders hs key := by
        simp only [joinedHeaders, hfilter]
      rw [hsame, List.foldl_cons, List.foldl_nil]
      exact emplaceHeader_of_ne _ _ _ _ hk

def IncomingMessage.blank (m : IncomingMessage) : IncomingMessage :=
  { m with headers := fun _ => none, partialHeaderField := none, partialHeaderValue := none }

/-- The section ends up in `_headers` header by header. -/
def Assembled (lib : HttpParser) (m : IncomingMessage) (hs : List DeliveredHeader)
    (parser : ParserInfo) : Prop :=
  m.blank.emplaced lib (deliver hs parser) = hs.map DeliveredHeader.pair ∧
    (m.blank.after lib (deliver hs parser)).headers = joinedHeaders (hs.map DeliveredHeader.pair)

/-- No header is lost, merged or given foreign bytes exactly when every value comes in one piece
that is not empty. -/
theorem assembled_iff_whole (lib : HttpParser) (m : IncomingMessage) (hs : List DeliveredHeader)
    (parser : ParserInfo) : Assembled lib m hs parser ↔ ∀ h ∈ hs, h.Whole := by
  have hem : m.blank.emplaced lib (deliver hs parser) =
      Partials.assemble ⟨[], []⟩ (hs.flatMap DeliveredHeader.pieces) :=
    emplaced_eq_assemble lib _ m.blank ⟨[], []⟩ parser rfl rfl
  have hflush : ∀ l ∈ deliver hs parser, l.flushes = true := by
    intro l hl
    rcases List.mem_append.mp hl with hl | hl
    · obtain ⟨c, -, rfl⟩ := List.mem_map.mp hl
      cases c <;> rfl
    · rw [List.mem_singleton] at hl
      subst hl
      rfl
  rw [Assembled, headers_eq_foldl lib _ _ hflush, hem]
  constructor
  · rintro ⟨h, -⟩
    exact (assemble_section hs).mp h
  · intro h
    have hpairs := (assemble_section hs).mpr h
    refine ⟨hpairs, ?_⟩
    rw [hpairs]
    apply foldl_emplaceHeader
    rw [← hpairs]
    exact Partials.value_ne_of_assembled _ _

/-- `x: foo` cut behind the `f`, and `y: bar`: the rest of the first value becomes the second. -/
theorem split_value_moves_on :
    ∃ lib m hs parser, ¬Assembled lib m hs parser ∧
      m.blank.emplaced lib (deliver hs parser) =
        [(ascii "x", ascii "f"), (ascii "y", ascii "oo")] ∧
      hs.map DeliveredHeader.pair = [(ascii "x", ascii "foo"), (ascii "y", ascii "bar")] := by
  let lib : HttpParser := ⟨fun _ => ascii "GET", fun _ parser => (true, parser)⟩
  let m := IncomingMessage.init .request ⟨fun _ => none, 0⟩ 0 0 0
  let hs : List DeliveredHeader :=
    [⟨[ascii "X"], [ascii "f", ascii "oo"], by decide, by decide⟩,
      ⟨[ascii "Y"], [ascii "bar"], by decide, by decide⟩]
  let parser : ParserInfo := ⟨1, 1, 1, 0, false, true⟩
  have hem : m.blank.emplaced lib (deliver hs parser) =
      [(ascii "x", ascii "f"), (ascii "y", ascii "oo")] := by decide
  have hpairs : hs.map DeliveredHeader.pair =
      [(ascii "x", ascii "foo"), (ascii "y", ascii "bar")] := by decide
  refine ⟨lib, m, hs, parser, ?_, hem, hpairs⟩
  rintro ⟨h, -⟩
  rw [hem, hpairs] at h
  revert h
  decide

end Libnodecc.Http

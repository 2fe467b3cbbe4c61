import Libnodecc.Http.Url
import Libnodecc.Framework.Emplace

namespace Libnodecc.Http.Url

def segments (query : Bytes) : List Bytes := query.splitOn 0x26

def splitEq : Bytes → Option (Bytes × Bytes)
  | [] => none
  | ch :: rest =>
    if ch = 0x3d then some ([], rest) else (splitEq rest).map fun b => (ch :: b.1, b.2)

def binding (segment : Bytes) : Option (Bytes × Bytes) :=
  (splitEq segment).filter fun b => b.1 ≠ [] ∧ b.2 ≠ []

def bindings (query : Bytes) : List (Bytes × Bytes) := (segments query).filterMap binding

structure SplitsParams (params : Bytes → Option Buf) (query : Bytes) : Prop where
  first : ∀ name, params name = (firstSet (bindings query) name).map some
  unmixed : ∀ name value, params name = some value →
    ∃ bytes, value = some bytes ∧ name ++ 0x3d :: bytes ∈ segments query

/-- A binding that is to be inserted, and whether it is that of a segment. -/
structure Attempt where
  name : Bytes
  value : Bytes
  own : Bool
  deriving DecidableEq

def Attempt.call (a : Attempt) : Bytes × Bytes := (a.name, a.value)

/-- Nothing is inserted without a field, or without a value. -/
def attempt (field : Buf) (value : Bytes) (own : Bool) : List Attempt :=
  match field with
  | none => []
  | some name => if value = [] then [] else [⟨name, value, own⟩]

/-- A segment that begins at `start`, with the `field` that is left of those before it: without a
name it is taken for the value of that field, and without an equals sign everything from index 1
on is. -/
def scanPlain (query : Bytes) (start : Nat) (field : Buf) (segment : Bytes) : Buf × List Attempt :=
  match splitEq segment with
  | none => (field, attempt field ((query.take (start + segment.length)).drop 1) false)
  | some (name, value) =>
    if name = [] then (field, attempt field value false)
    else (some name, attempt (some name) value true)

/-- An equals sign at index 0 is not noticed. -/
def scanSegment (query : Bytes) (start : Nat) (field : Buf) (segment : Bytes) :
    Buf × List Attempt :=
  if start = 0 ∧ segment.head? = some 0x3d then
    let (field, attempts) := scanPlain query 1 field segment.tail
    (field, attempts.map fun a => { a with own := false })
  else scanPlain query start field segment

def scanSegments (query : Bytes) : Nat → Buf → List Bytes → List Attempt
  | _, _, [] => []
  | start, field, segment :: rest =>
    let (field, attempts) := scanSegment query start field segment
    attempts ++ scanSegments query (start + segment.length + 1) field rest

def attempts (query : Bytes) : List Attempt := scanSegments query 0 none (segments query)

/-- Where a segment is taken for a value of another one's name, this name is bound already, or the
value is the right one. -/
def Unmixed (query : Bytes) : Prop :=
  Harmless Attempt.call Attempt.own (bindings query) [] (attempts query)

instance (query : Bytes) : Decidable (Unmixed query) :=
  inferInstanceAs (Decidable (Harmless ..))

theorem splitEq_none {segment : Bytes} : splitEq segment = none ↔ 0x3d ∉ segment := by
  induction segment with
  | nil => simp [splitEq]
  | cons ch rest ih =>
    rw [splitEq]
    split_ifs with hch
    · simp [hch]
    · rw [Option.map_eq_none_iff, ih, List.mem_cons, not_or]
      exact ⟨fun h => ⟨Ne.symm hch, h⟩, And.right⟩

theorem splitEq_some {segment name value : Bytes} (h : splitEq segment = some (name, value)) :
    segment = name ++ 0x3d :: value ∧ 0x3d ∉ name := by
  induction segment generalizing name with
  | nil => cases h
  | cons ch rest ih =>
    rw [splitEq] at h
    split_ifs at h with hch
    · cases h
      exact ⟨congrArg (· :: value) hch, List.not_mem_nil⟩
    · obtain ⟨⟨name', value'⟩, hrest, heq⟩ := Option.map_eq_some_iff.mp h
      cases heq
      obtain ⟨rfl, hname⟩ := ih hrest
      exact ⟨rfl, by simp [Ne.symm hch, hname]⟩

theorem segments_single {query : Bytes} (h : 0x26 ∉ query) : segments query = [query] :=
  List.splitOn_eq_singleton h

theorem segments_cons {segment : Bytes} (h : 0x26 ∉ segment) (rest : Bytes) :
    segments (segment ++ 0x26 :: rest) = segment :: segments rest := by
  rw [segments, List.splitOn_append_cons_self, List.splitOn_eq_singleton h]
  rfl

/-- A slice shows the bytes from its first to its last. -/
theorem slice_eq_view (bs : Bytes) (first last : Nat) :
    Buf.slice (some bs) first last = Buf.view ((bs.take last).drop first) := by
  have hcut : (bs.take (min last bs.length)).drop (min first bs.length) =
      (bs.take last).drop first := by
    by_cases hfirst : first ≤ bs.length
    · rw [Nat.min_eq_left hfirst, List.take_eq_take_iff.mpr]
      omega
    · rw [List.drop_eq_nil_of_le (by rw [List.length_take]; omega),
        List.drop_eq_nil_of_le (by rw [List.length_take]; omega)]
  show (if min first bs.length < min last bs.length then _ else _) = _
  rw [hcut, Buf.view]
  by_cases hempty : (bs.take last).drop first = []
  · rw [if_pos hempty, if_neg]
    rw [List.drop_eq_nil_iff, List.length_take] at hempty
    omega
  · rw [if_neg hempty, if_pos]
    rw [List.drop_eq_nil_iff, List.length_take] at hempty
    omega

section
variable {query : Bytes} {field : Buf}

theorem scan_append (q : Buf) (i : Nat) (xs ys : Bytes) (s : ParamsLoop) :
    ParamsLoop.scan q i (xs ++ ys) s =
      ParamsLoop.scan q (i + xs.length) ys (ParamsLoop.scan q i xs s) := by
  induction xs generalizing i s with
  | nil => rfl
  | cons x xs ih =>
    rw [List.cons_append, ParamsLoop.scan, ParamsLoop.scan, ih, List.length_cons]
    congr 1
    omega

theorem scan_idle (q : Buf) (i : Nat) (xs : Bytes) (s : ParamsLoop) (hamp : 0x26 ∉ xs)
    (heq : s.currentEqPos = 0 → 0x3d ∉ xs) : ParamsLoop.scan q i xs s = s := by
  induction xs generalizing i with
  | nil => rfl
  | cons x xs ih =>
    simp only [List.mem_cons, not_or] at hamp heq
    have hnext : s.next q i x = s := by
      unfold ParamsLoop.next
      rw [if_neg (Ne.symm hamp.1), if_neg]
      intro ⟨hx, hzero⟩
      exact (heq hzero).1 hx.symm
    rw [ParamsLoop.scan, hnext]
    exact ih (i + 1) hamp.2 fun hzero => (heq hzero).2

theorem between (front mid back : Bytes) :
    ((front ++ (mid ++ back)).take (front.length + mid.length)).drop front.length = mid := by
  rw [← List.append_assoc, ← List.length_append, List.take_left, List.drop_left]

def Attempt.put (a : Attempt) : Bytes × Buf := (a.name, some a.value)

theorem emplace_eq (params : Bytes → Option Buf) (name : Bytes) (value : Buf) :
    emplace params name value = Libnodecc.emplace params name value := by
  unfold emplace Libnodecc.emplace
  cases params name <;> rfl

/-- At the end of a segment, a binding is inserted. -/
theorem insert_attempt (s : ParamsLoop) (i : Nat) (own : Bool) (hi : i ≤ query.length)
    (hlength : query.length < 2^63) (heq : s.currentEqPos ≤ i) :
    s.insert (some query) i = emplaceAll s.params
      ((attempt s.field ((query.take i).drop (s.currentEqPos + 1)) own).map Attempt.put) := by
  have hsub : subSizeT i s.currentEqPos = i - s.currentEqPos := by
    simp only [subSizeT, sizeT]
    omega
  unfold ParamsLoop.insert attempt
  cases s.field with
  | none => rfl
  | some name =>
    simp only [hsub, slice_eq_view, Buf.view]
    by_cases hempty : (query.take i).drop (s.currentEqPos + 1) = []
    · rw [if_pos hempty, if_pos hempty, if_neg]
      · rfl
      · rw [List.drop_eq_nil_iff, List.length_take] at hempty
        omega
    · rw [if_neg hempty, if_neg hempty, if_pos]
      · rw [emplace_eq]
        rfl
      · rw [List.drop_eq_nil_iff, List.length_take] at hempty
        omega

/-- The field that the first equals sign of a segment finishes. -/
theorem slice_name (field : Buf) (front name rest : Bytes)
    (hquery : query = front ++ (name ++ rest)) (hlength : query.length < 2^63) :
    (if 1 < subSizeT (front.length + name.length) (subSizeT front.length 1) then
      Buf.slice (some query) (sizeT (subSizeT front.length 1 + 1)) (front.length + name.length)
      else field) = if name = [] then field else some name := by
  have hend : front.length + name.length ≤ query.length := by
    rw [hquery, List.length_append, List.length_append]
    omega
  have hdistance : subSizeT (front.length + name.length) (subSizeT front.length 1) =
      name.length + 1 := by
    simp only [subSizeT, sizeT]
    omega
  have hbegin : sizeT (subSizeT front.length 1 + 1) = front.length := by
    simp only [subSizeT, sizeT]
    omega
  rw [hdistance, hbegin, slice_eq_view, hquery, between, Buf.view]
  cases name with
  | nil => rfl
  | cons ch name => simp

theorem between_equals (front name value rest : Bytes)
    (hquery : query = front ++ (name ++ 0x3d :: (value ++ rest))) :
    (query.take (front.length + (name ++ 0x3d :: value).length)).drop
      (front.length + name.length + 1) = value := by
  have hparts : query = (front ++ name ++ [0x3d]) ++ (value ++ rest) := by
    rw [hquery]
    simp
  rw [hparts]
  have hbetween := between (front ++ name ++ [0x3d]) value rest
  simp only [List.length_append, List.length_cons, List.length_nil] at hbetween ⊢
  rw [show front.length + (name.length + (value.length + 1)) =
    front.length + name.length + (0 + 1) + value.length by omega]
  exact hbetween

/-- A segment, from its first byte to its last. -/
theorem scan_plain (params : Bytes → Option Buf) (field : Buf) (front segment rest : Bytes)
    (hquery : query = front ++ (segment ++ rest))
    (hlength : query.length < 2^63) (hamp : 0x26 ∉ segment)
    (hseen : ¬(front.length = 0 ∧ segment.head? = some 0x3d)) :
    ∃ s, ParamsLoop.scan (some query) front.length segment
        ⟨params, subSizeT front.length 1, 0, field⟩ = s ∧ s.params = params ∧
      s.field = (scanPlain query front.length field segment).1 ∧
      s.insert (some query) (front.length + segment.length) = emplaceAll params
        ((scanPlain query front.length field segment).2.map Attempt.put) := by
  have hend : front.length + segment.length ≤ query.length := by
    rw [hquery, List.length_append, List.length_append]
    omega
  refine ⟨_, rfl, ?_⟩
  unfold scanPlain
  cases hsplit : splitEq segment with
  | none =>
    rw [scan_idle _ _ _ _ hamp fun _ => splitEq_none.mp hsplit]
    exact ⟨rfl, rfl, insert_attempt _ _ _ hend hlength (Nat.zero_le _)⟩
  | some b =>
    obtain ⟨name, value⟩ := b
    obtain ⟨rfl, hname⟩ := splitEq_some hsplit
    simp only [List.mem_append, List.mem_cons, not_or] at hamp
    obtain ⟨hnameAmp, -, hvalueAmp⟩ := hamp
    have hparts : query = front ++ (name ++ 0x3d :: (value ++ rest)) := by
      rw [hquery, List.append_assoc, List.cons_append]
    have hfield := slice_name field front name _ hparts hlength
    have hpos : front.length + name.length ≠ 0 := by
      intro hzero
      obtain rfl : name = [] := List.eq_nil_of_length_eq_zero (by omega)
      exact hseen ⟨by omega, rfl⟩
    have hscan : ParamsLoop.scan (some query) front.length (name ++ 0x3d :: value)
        ⟨params, subSizeT front.length 1, 0, field⟩ =
          ⟨params, 0, front.length + name.length, if name = [] then field else some name⟩ := by
      rw [scan_append, scan_idle _ _ _ _ hnameAmp fun _ => hname, ParamsLoop.scan,
        ParamsLoop.next, if_neg (by decide), if_pos ⟨rfl, rfl⟩]
      simp only [hfield]
      exact scan_idle _ _ _ _ hvalueAmp fun hzero => absurd hzero hpos
    rw [hscan]
    refine ⟨rfl, ?_, ?_⟩
    · show (if name = [] then field else some name) = (if name = [] then _ else _ : Buf × _).1
      split_ifs <;> rfl
    · rw [insert_attempt _ _ (decide (name ≠ [])) hend hlength
        (by simp only [List.length_append]; omega), between_equals front name value rest hparts]
      by_cases hempty : name = []
      · simp [hempty]
      · simp [hempty]

/-- The equals sign at index 0 leaves the state of a segment that begins behind it. -/
theorem scan_segment (params : Bytes → Option Buf) (field : Buf) (front segment rest : Bytes)
    (hquery : query = front ++ (segment ++ rest))
    (hlength : query.length < 2^63) (hamp : 0x26 ∉ segment) :
    ∃ s, ParamsLoop.scan (some query) front.length segment
        ⟨params, subSizeT front.length 1, 0, field⟩ = s ∧ s.params = params ∧
      s.field = (scanSegment query front.length field segment).1 ∧
      s.insert (some query) (front.length + segment.length) = emplaceAll params
        ((scanSegment query front.length field segment).2.map Attempt.put) := by
  unfold scanSegment
  by_cases hseen : front.length = 0 ∧ segment.head? = some 0x3d
  · rw [if_pos hseen]
    obtain ⟨hfront, hhead⟩ := hseen
    obtain rfl : front = [] := List.eq_nil_of_length_eq_zero hfront
    obtain ⟨value, rfl⟩ := List.head?_eq_some_iff.mp hhead
    have hscan : ParamsLoop.scan (some query) 0 (0x3d :: value)
        ⟨params, subSizeT 0 1, 0, field⟩ =
          ParamsLoop.scan (some query) 1 value ⟨params, subSizeT 1 1, 0, field⟩ := rfl
    obtain ⟨s, hs, hparams, hfield, hinsert⟩ := scan_plain params field [0x3d] value rest
      (by rw [hquery]; rfl) hlength (fun hmem => hamp (List.mem_cons_of_mem _ hmem)) (by simp)
    refine ⟨s, hscan.trans hs, hparams, hfield, ?_⟩
    rw [List.map_map]
    rw [show ([] : Bytes).length + (0x3d :: value).length = [(0x3d : UInt8)].length + value.length by
      simp only [List.length_cons, List.length_nil]; omega]
    exact hinsert
  · rw [if_neg hseen]
    exact scan_plain params field front segment rest hquery hlength hamp hseen

theorem emplaceAll_append (m : Bytes → Option Buf) (as bs : List (Bytes × Buf)) :
    emplaceAll m (as ++ bs) = emplaceAll (emplaceAll m as) bs := List.foldl_append ..

/-- From the beginning of a segment to the end of the query. -/
theorem scan_rest (n : Nat) (front rest : Bytes) (params : Bytes → Option Buf) (field : Buf)
    (hn : rest.length ≤ n) (hquery : query = front ++ rest) (hlength : query.length < 2^63) :
    (ParamsLoop.scan (some query) front.length rest
        ⟨params, subSizeT front.length 1, 0, field⟩).insert (some query) query.length =
      emplaceAll params
        ((scanSegments query front.length field (segments rest)).map Attempt.put) := by
  induction n generalizing front rest params field with
  | zero =>
    obtain rfl : rest = [] := List.eq_nil_of_length_eq_zero (by omega)
    obtain ⟨s, hs, -, -, hinsert⟩ := scan_segment params field front [] [] hquery hlength
      List.not_mem_nil
    rw [hs, segments_single List.not_mem_nil]
    simp only [scanSegments, List.append_nil]
    rw [← hinsert, hquery, List.append_nil]
    rfl
  | succ n ih =>
    by_cases hamp : 0x26 ∈ rest
    · obtain ⟨segment, rest', rfl, hsegment⟩ := List.eq_append_cons_of_mem hamp
      obtain ⟨s, hs, hparams, hfield, hinsert⟩ :=
        scan_segment params field front segment (0x26 :: rest') hquery hlength hsegment
      rw [scan_append, hs, segments_cons hsegment]
      simp only [scanSegments, List.map_append]
      rw [emplaceAll_append, ← hinsert, ← hfield, ParamsLoop.scan, ParamsLoop.next, if_pos rfl]
      have hfront : (front ++ segment ++ [0x26]).length = front.length + segment.length + 1 := by
        simp only [List.length_append, List.length_singleton]
      have hprev : subSizeT (front ++ segment ++ [(0x26 : UInt8)]).length 1 =
          front.length + segment.length := by
        rw [hquery, List.length_append, List.length_append] at hlength
        rw [hfront]
        simp only [subSizeT, sizeT]
        omega
      have hrest := ih (front ++ segment ++ [0x26]) rest'
        (s.insert (some query) (front.length + segment.length)) s.field
        (by rw [List.length_append, List.length_cons] at hn; omega) (by rw [hquery]; simp)
      rw [hprev, hfront] at hrest
      exact hrest
    · obtain ⟨s, hs, -, -, hinsert⟩ := scan_segment params field front rest []
        (by rw [hquery, List.append_nil]) hlength hamp
      rw [hs, segments_single hamp]
      simp only [scanSegments, List.append_nil]
      rw [← hinsert, hquery, List.length_append]

theorem splitParams_eq (params : Bytes → Option Buf) (hlength : query.length < 2^63) :
    splitParams params (some query) = emplaceAll params ((attempts query).map Attempt.put) :=
  scan_rest query.length [] query params none (Nat.le_refl _) rfl hlength

theorem attempt_own (value : Bytes) (field : Buf) (own : Bool) :
    ((attempt field value own).filter Attempt.own).map Attempt.call =
      if own = true ∧ value ≠ [] then (field.map fun name => (name, value)).toList else [] := by
  cases field with
  | none => simp [attempt]
  | some name =>
    by_cases hempty : value = []
    · simp [attempt, hempty]
    · cases own <;> simp [attempt, hempty, Attempt.call]

theorem scanPlain_own (start : Nat) (segment : Bytes) :
    ((scanPlain query start field segment).2.filter Attempt.own).map Attempt.call =
      (binding segment).toList := by
  unfold scanPlain binding
  cases hsplit : splitEq segment with
  | none => simp [attempt_own]
  | some b =>
    obtain ⟨name, value⟩ := b
    by_cases hname : name = []
    · simp [hname, attempt_own]
    · by_cases hvalue : value = []
      · simp [hname, hvalue, attempt]
      · simp [hname, hvalue, attempt, Attempt.call, Option.filter]

theorem scanSegment_own (start : Nat) (segment : Bytes) :
    ((scanSegment query start field segment).2.filter Attempt.own).map Attempt.call =
      (binding segment).toList := by
  unfold scanSegment
  split_ifs with hseen
  · obtain ⟨value, rfl⟩ := List.head?_eq_some_iff.mp hseen.2
    simp [List.filter_map, binding, splitEq, Function.comp_def]
  · exact scanPlain_own start segment

theorem scanSegments_own (start : Nat) (list : List Bytes) :
    ((scanSegments query start field list).filter Attempt.own).map Attempt.call =
      list.filterMap binding := by
  induction list generalizing start field with
  | nil => rfl
  | cons segment list ih =>
    rw [scanSegments, List.filter_append, List.map_append, ih, scanSegment_own, List.filterMap_cons]
    cases binding segment <;> rfl

theorem put_eq (a : Attempt) : a.put = (a.call.1, some a.call.2) := rfl

theorem firstSet_put (list : List Attempt) (name : Bytes) :
    firstSet (list.map Attempt.put) name = (firstSet (list.map Attempt.call) name).map some := by
  induction list with
  | nil => rfl
  | cons a list ih =>
    rw [List.map_cons, List.map_cons, firstSet_cons, firstSet_cons, ih, put_eq]
    split_ifs <;> rfl

theorem binding_eq {segment name value : Bytes} (h : binding segment = some (name, value)) :
    segment = name ++ 0x3d :: value := by
  unfold binding at h
  rw [Option.filter_eq_some_iff] at h
  exact (splitEq_some h.1).1

/-- The loop splits the parameters if and only if no segments are mixed. -/
theorem splitParams_iff (hlength : query.length < 2^63) :
    SplitsParams (splitParams (fun _ => none) (some query)) query ↔ Unmixed query := by
  have hparams (name : Bytes) : splitParams (fun _ => none) (some query) name =
      (firstSet ((attempts query).map Attempt.call) name).map some := by
    rw [splitParams_eq _ hlength, emplaceAll_empty, firstSet_put]
  have hown : ((attempts query).filter Attempt.own).map Attempt.call = bindings query :=
    scanSegments_own 0 (segments query)
  have hharmless := harmless_iff Attempt.call Attempt.own (bindings query) [] (attempts query)
    (fun name _ => by rw [hown])
  unfold Unmixed
  rw [hharmless]
  constructor
  · intro h name _
    have hfirst := h.first name
    rw [hparams] at hfirst
    exact Option.map_injective (fun _ _ => Option.some.inj) hfirst
  · intro h
    have hfirst (name : Bytes) : splitParams (fun _ => none) (some query) name =
        (firstSet (bindings query) name).map some := by
      rw [hparams, h name List.not_mem_nil]
    refine ⟨hfirst, fun name value hvalue => ?_⟩
    rw [hfirst] at hvalue
    obtain ⟨bytes, hbytes, rfl⟩ := Option.map_eq_some_iff.mp hvalue
    obtain ⟨segment, hsegment, hbinding⟩ := List.mem_filterMap.mp (firstSet_mem hbytes)
    refine ⟨bytes, rfl, ?_⟩
    rw [← binding_eq hbinding]
    exact hsegment

end

/-- What `params()` makes of the query of a URL, whatever was asked of the object before the URL
was set. -/
theorem params_iff (parse : ParseUrl) (u : Url) (url : Bytes) (parser : HttpParserUrl) (query : Buf)
    (hparse : parse url u.parser = (true, parser))
    (hquery : ({ u with url := some url, parser := parser } : Url).field .query = query)
    (hlength : query.size < 2^63) :
    SplitsParams ((u.setUrl (some url)).parseParams parse).params query.bytes ↔
      Unmixed query.bytes := by
  have hparams : ((u.setUrl (some url)).parseParams parse).params =
      if query.isSome then splitParams (fun _ => none) query else fun _ => none := by
    rw [← hquery]
    simp only [parseParams, parseUrl, setUrl, UrlState.rank, hparse, get]
    rfl
  rw [hparams]
  cases query with
  | none =>
    refine iff_of_true ⟨fun _ => rfl, by simp⟩ ?_
    decide
  | some query => exact splitParams_iff hlength

/-- A parser that takes a URL to be all query, and the parameters it leads to. -/
def queryOnly : ParseUrl :=
  fun url _ => (true, ⟨fun type => if type = .query then some (0, url.length) else none, 0⟩)

def paramsOf (query : Bytes) : Bytes → Option Buf :=
  (((Url.uninitialized ⟨fun _ => none, 0⟩).setUrl (some query)).parseParams queryOnly).params

/-- `a=1&b&a=2`. -/
theorem params_iff_first : SplitsParams
    (paramsOf [0x61, 0x3d, 0x31, 0x26, 0x62, 0x26, 0x61, 0x3d, 0x32])
    [0x61, 0x3d, 0x31, 0x26, 0x62, 0x26, 0x61, 0x3d, 0x32] :=
  (params_iff queryOnly (Url.uninitialized ⟨fun _ => none, 0⟩)
    [0x61, 0x3d, 0x31, 0x26, 0x62, 0x26, 0x61, 0x3d, 0x32]
    ⟨fun type => if type = .query then some (0, 9) else none, 0⟩
    (some [0x61, 0x3d, 0x31, 0x26, 0x62, 0x26, 0x61, 0x3d, 0x32]) rfl rfl (by decide)).mpr
    (by decide +kernel)

/-- In `a=&=2` the name of the first segment gets the value of the second one, in `a=&b` it gets
`=&b`, and in `=a=b` there is a parameter though the segment has no name. -/
theorem params_mixed :
    ¬SplitsParams (paramsOf [0x61, 0x3d, 0x26, 0x3d, 0x32]) [0x61, 0x3d, 0x26, 0x3d, 0x32] ∧
    ¬SplitsParams (paramsOf [0x61, 0x3d, 0x26, 0x62]) [0x61, 0x3d, 0x26, 0x62] ∧
    ¬SplitsParams (paramsOf [0x3d, 0x61, 0x3d, 0x62]) [0x3d, 0x61, 0x3d, 0x62] := by
  refine ⟨?_, ?_, ?_⟩
  · intro h
    exact absurd (h.first [0x61]) (by decide +kernel)
  · intro h
    exact absurd (h.first [0x61]) (by decide +kernel)
  · intro h
    exact absurd (h.first [0x61]) (by decide +kernel)

end Libnodecc.Http.Url

import Libnodecc.Framework.Run
import Libnodecc.Http.WireFormat

namespace Libnodecc.Http

/-- The fields of a `tm` that are read; years count from 1900. -/
structure Tm where
  sec : Nat
  min : Nat
  hour : Nat
  mday : Nat
  mon : Nat
  year : Nat
  wday : Nat
  deriving DecidableEq

def wdayNames : List Bytes :=
  [ascii "Sun", ascii "Mon", ascii "Tue", ascii "Wed", ascii "Thu", ascii "Fri", ascii "Sat"]

def monNames : List Bytes :=
  [ascii "Jan", ascii "Feb", ascii "Mar", ascii "Apr", ascii "May", ascii "Jun", ascii "Jul",
    ascii "Aug", ascii "Sep", ascii "Oct", ascii "Nov", ascii "Dec"]

def toChar (x : Nat) : UInt8 := UInt8.ofNat (0x30 + x)

def twoChars (x : Nat) : Bytes := [toChar (x / 10), toChar (x % 10)]

/-- What `update_buffer` writes behind the name of the header. -/
def Tm.date (t : Tm) : Bytes :=
  let year := t.year + 1900
  wdayNames.getD t.wday [] ++ ascii ", " ++ twoChars t.mday ++ ascii " " ++
    monNames.getD t.mon [] ++ ascii " " ++
    [toChar (year / 1000), toChar (year / 100 % 10), toChar (year / 10 % 10), toChar (year % 10)] ++
    ascii " " ++ twoChars t.hour ++ ascii ":" ++ twoChars t.min ++ ascii ":" ++ twoChars t.sec ++
    ascii " GMT"

/-- The 37 bytes of `update_buffer`. -/
def updateBuffer (t : Tm) : Bytes := ascii "date: " ++ t.date ++ crlf

/-- What `gmtime_r` gives, up to the year 9999. -/
structure Tm.Valid (t : Tm) : Prop where
  sec : t.sec ≤ 60
  min : t.min ≤ 59
  hour : t.hour ≤ 23
  mday : 1 ≤ t.mday ∧ t.mday ≤ 31
  mon : t.mon ≤ 11
  year : t.year + 1900 ≤ 9999
  wday : t.wday ≤ 6

instance (t : Tm) : Decidable t.Valid :=
  decidable_of_iff (t.sec ≤ 60 ∧ t.min ≤ 59 ∧ t.hour ≤ 23 ∧ (1 ≤ t.mday ∧ t.mday ≤ 31) ∧
    t.mon ≤ 11 ∧ t.year + 1900 ≤ 9999 ∧ t.wday ≤ 6)
    ⟨fun ⟨a, b, c, d, e, f, g⟩ => ⟨a, b, c, d, e, f, g⟩,
      fun ⟨a, b, c, d, e, f, g⟩ => ⟨a, b, c, d, e, f, g⟩⟩

def segment (value : Bytes) (pos len : Nat) : Bytes := (value.drop pos).take len

/-- The date of a message as a peer reads it, an IMF-fixdate. -/
def readDate (value : Bytes) : Option Tm :=
  if value.length = 29 ∧ segment value 3 2 = ascii ", " ∧ segment value 7 1 = ascii " " ∧
      segment value 11 1 = ascii " " ∧ segment value 16 1 = ascii " " ∧
      segment value 19 1 = ascii ":" ∧ segment value 22 1 = ascii ":" ∧
      segment value 25 4 = ascii " GMT" then
    match wdayNames.idxOf? (segment value 0 3), Buf.decimal (segment value 5 2),
      monNames.idxOf? (segment value 8 3), Buf.decimal (segment value 12 4),
      Buf.decimal (segment value 17 2), Buf.decimal (segment value 20 2),
      Buf.decimal (segment value 23 2) with
    | some wday, some mday, some mon, some year, some hour, some min, some sec =>
      if 1900 ≤ year then some ⟨sec, min, hour, mday, mon, year - 1900, wday⟩ else none
    | _, _, _, _, _, _, _ => none
  else none

theorem toChar_digit (d : Nat) (h : d < 10) : toChar d = Buf.digitChar d := by
  rw [toChar, Buf.digitChar, if_pos h]

theorem decimal_two (x : Nat) (h : x < 100) : Buf.decimal (twoChars x) = some x := by
  have hchars : twoChars x = [x / 10, x % 10].map Buf.digitChar := by
    rw [twoChars, toChar_digit _ (by omega), toChar_digit _ (by omega)]
    rfl
  rw [hchars, Buf.decimal_digits _ (by simp) (by simp; omega)]
  simp only [readDigits, List.foldl_cons, List.foldl_nil, Option.some.injEq]
  omega

theorem decimal_four (x : Nat) (h : x ≤ 9999) :
    Buf.decimal [toChar (x / 1000), toChar (x / 100 % 10), toChar (x / 10 % 10), toChar (x % 10)] =
      some x := by
  have hchars : [toChar (x / 1000), toChar (x / 100 % 10), toChar (x / 10 % 10), toChar (x % 10)] =
      [x / 1000, x / 100 % 10, x / 10 % 10, x % 10].map Buf.digitChar := by
    rw [toChar_digit _ (by omega), toChar_digit _ (by omega), toChar_digit _ (by omega),
      toChar_digit _ (by omega)]
    rfl
  rw [hchars, Buf.decimal_digits _ (by simp) (by simp; omega)]
  simp only [readDigits, List.foldl_cons, List.foldl_nil, Option.some.injEq]
  omega

theorem wdayNames_get (i : Nat) (h : i ≤ 6) :
    ∃ a b c, wdayNames.getD i [] = [a, b, c] ∧ wdayNames.idxOf? [a, b, c] = some i ∧
      ∀ ch ∈ [a, b, c], (0x21 : UInt8) ≤ ch := by
  have hall : ∀ i : Fin 7, (wdayNames.getD i []).length = 3 ∧
      wdayNames.idxOf? (wdayNames.getD i []) = some i.val ∧
      ∀ ch ∈ wdayNames.getD i [], (0x21 : UInt8) ≤ ch := by decide +kernel
  obtain ⟨hlen, hidx, hletters⟩ := hall ⟨i, by omega⟩
  obtain ⟨a, b, c, habc⟩ := List.length_eq_three.mp hlen
  exact ⟨a, b, c, habc, habc ▸ hidx, habc ▸ hletters⟩

theorem monNames_get (i : Nat) (h : i ≤ 11) :
    ∃ a b c, monNames.getD i [] = [a, b, c] ∧ monNames.idxOf? [a, b, c] = some i ∧
      ∀ ch ∈ [a, b, c], (0x21 : UInt8) ≤ ch := by
  have hall : ∀ i : Fin 12, (monNames.getD i []).length = 3 ∧
      monNames.idxOf? (monNames.getD i []) = some i.val ∧
      ∀ ch ∈ monNames.getD i [], (0x21 : UInt8) ≤ ch := by decide +kernel
  obtain ⟨hlen, hidx, hletters⟩ := hall ⟨i, by omega⟩
  obtain ⟨a, b, c, habc⟩ := List.length_eq_three.mp hlen
  exact ⟨a, b, c, habc, habc ▸ hidx, habc ▸ hletters⟩

theorem date_eq (t : Tm) (a b c d e f : UInt8) (hwday : wdayNames.getD t.wday [] = [a, b, c])
    (hmonth : monNames.getD t.mon [] = [d, e, f]) :
    t.date = [a, b, c, 0x2c, 0x20, toChar (t.mday / 10), toChar (t.mday % 10), 0x20,
      d, e, f, 0x20, toChar ((t.year + 1900) / 1000), toChar ((t.year + 1900) / 100 % 10),
      toChar ((t.year + 1900) / 10 % 10), toChar ((t.year + 1900) % 10), 0x20,
      toChar (t.hour / 10), toChar (t.hour % 10), 0x3a, toChar (t.min / 10), toChar (t.min % 10),
      0x3a, toChar (t.sec / 10), toChar (t.sec % 10), 0x20, 0x47, 0x4d, 0x54] := by
  rw [Tm.date, hwday, hmonth]
  rfl

theorem readDate_date (t : Tm) (h : t.Valid) : readDate t.date = some t := by
  obtain ⟨a, b, c, hwday, hday, -⟩ := wdayNames_get t.wday h.wday
  obtain ⟨d, e, f, hmonth, hmon, -⟩ := monNames_get t.mon h.mon
  have hmday := decimal_two t.mday (by have := h.mday; omega)
  have hhour := decimal_two t.hour (by have := h.hour; omega)
  have hmin := decimal_two t.min (by have := h.min; omega)
  have hsec := decimal_two t.sec (by have := h.sec; omega)
  have hyear := decimal_four (t.year + 1900) h.year
  rw [twoChars] at hmday hhour hmin hsec
  rw [date_eq t a b c d e f hwday hmonth, readDate, if_pos ⟨rfl, rfl, rfl, rfl, rfl, rfl, rfl, rfl⟩]
  simp only [segment, List.drop_succ_cons, List.drop_zero, List.take_succ_cons, List.take_zero,
    hday, hmon, hmday, hhour, hmin, hsec, hyear]
  rw [if_pos (by omega), Nat.add_sub_cancel]

theorem toChar_visible (d : Nat) (h : d < 10) : (0x21 : UInt8) ≤ toChar d := by
  have hall : ∀ d : Fin 10, (0x21 : UInt8) ≤ toChar d := by decide
  exact hall ⟨d, h⟩

/-- The date line is a header line of 37 bytes, and its date can be sent. -/
theorem updateBuffer_line (t : Tm) (h : t.Valid) :
    updateBuffer t = (dateLine t.date).text ∧ (updateBuffer t).length = 37 ∧
      FieldOk (ascii "date") t.date := by
  obtain ⟨a, b, c, hwday, -, hday⟩ := wdayNames_get t.wday h.wday
  obtain ⟨d, e, f, hmonth, -, hmon⟩ := monNames_get t.mon h.mon
  have hdate := date_eq t a b c d e f hwday hmonth
  have hname : ascii "date: " = ascii "date" ++ ascii ": " := by decide
  refine ⟨?_, ?_, by decide, by decide +kernel, ?_, ?_⟩
  · rw [updateBuffer, hname]
    simp only [HeaderLine.text, dateLine]
  · rw [updateBuffer, hdate]
    rfl
  · have hprint : (0x20 : UInt8) ≤ 0x21 := by decide
    have hdigit (d : Nat) (hd : d < 10) : (0x20 : UInt8) ≤ toChar d :=
      UInt8.le_trans hprint (toChar_visible d hd)
    have hprintable : ∀ ch ∈ t.date, (0x20 : UInt8) ≤ ch := by
      rw [hdate]
      simp only [List.forall_mem_cons] at hday hmon ⊢
      obtain ⟨h1, h2, h3, -⟩ := hday
      obtain ⟨h4, h5, h6, -⟩ := hmon
      have hmday := h.mday
      have hyear := h.year
      have hhour := h.hour
      have hmin := h.min
      have hsec := h.sec
      refine ⟨UInt8.le_trans hprint h1, UInt8.le_trans hprint h2, UInt8.le_trans hprint h3,
        by decide, by decide, hdigit _ ?_, hdigit _ ?_, by decide, UInt8.le_trans hprint h4,
        UInt8.le_trans hprint h5, UInt8.le_trans hprint h6, by decide, hdigit _ ?_, hdigit _ ?_,
        hdigit _ ?_, hdigit _ ?_, by decide, hdigit _ ?_, hdigit _ ?_, by decide, hdigit _ ?_,
        hdigit _ ?_, by decide, hdigit _ ?_, hdigit _ ?_, by decide, by decide, by decide, by decide, by simp⟩ <;> omega
    intro ch hch
    have hle := hprintable ch hch
    constructor
    · rintro rfl
      exact absurd hle (by decide)
    · rintro rfl
      exact absurd hle (by decide)
  · apply trim_edges
    · intro ch hch
      rw [hdate] at hch
      obtain rfl := Option.some.inj hch
      exact isOws_visible a (hday a List.mem_cons_self)
    · intro ch hch
      rw [hdate] at hch
      obtain rfl : (0x54 : UInt8) = ch := Option.some.inj hch
      decide

/-- `http_date_buffer`; `atomic` tells whether it was compiled with atomics. -/
structure DateBuffer where
  atomic : Bool
  lastUpdate : Nat
  date : Tm

/-- A call of `update`, with `uv_now` and what `time` and `gmtime_r` would say. -/
structure DateUpdate where
  now : Nat
  tm : Tm

/-- `update` on one thread. Without atomics `_last_update` stays as it is. -/
def DateBuffer.update (b : DateBuffer) (u : DateUpdate) : DateBuffer :=
  let age := (u.now + (2^64 - b.lastUpdate)) % 2^64
  if b.atomic then if 500 < age then { b with lastUpdate := u.now, date := u.tm } else b
  else if 500 ≤ age then { b with date := u.tm }
  else b

def DateBuffer.getBuffer (b : DateBuffer) : Bytes := updateBuffer b.date

/-- A buffer after some updates: with atomics its date is that of the last one that counted, without
them no time below the timeout is recorded. -/
structure Dated (constructed : Tm) (us : List DateUpdate) (b : DateBuffer) : Prop where
  atomic : b.atomic = true → b.date = constructed ∧ b.lastUpdate = 0 ∨
    ∃ v ∈ us, b.date = v.tm ∧ b.lastUpdate = v.now
  plain : b.atomic = false → b.lastUpdate = 0 ∧ ((∀ v ∈ us, v.now < 500) → b.date = constructed)

theorem age_eq (now last : Nat) (hnow : now < 2^64) (hlast : last ≤ now) :
    (now + (2^64 - last)) % 2^64 = now - last := by omega

section
variable {constructed : Tm} {us : List DateUpdate} {b : DateBuffer}

theorem Dated.update (hb : Dated constructed us b) (u : DateUpdate) (hnow : u.now < 2^64) :
    Dated constructed (us ++ [u]) (b.update u) := by
  unfold DateBuffer.update
  cases hatomic : b.atomic with
  | true =>
    simp only [if_true]
    by_cases hold : 500 < (u.now + (2^64 - b.lastUpdate)) % 2^64
    · rw [if_pos hold]
      exact ⟨fun _ => .inr ⟨u, by simp, rfl, rfl⟩, fun h => (by cases h)⟩
    · rw [if_neg hold]
      refine ⟨fun _ => ?_, fun h => absurd (hatomic.symm.trans h) (by simp)⟩
      rcases hb.atomic hatomic with h | ⟨v, hv, h⟩
      · exact .inl h
      · exact .inr ⟨v, List.mem_append_left _ hv, h⟩
  | false =>
    obtain ⟨hlast, hdate⟩ := hb.plain hatomic
    rw [hlast, age_eq u.now 0 hnow (Nat.zero_le _), Nat.sub_zero]
    simp only [Bool.false_eq_true, if_false]
    by_cases hold : 500 ≤ u.now
    · rw [if_pos hold]
      refine ⟨fun h => (by cases h), fun _ => ⟨rfl, ?_⟩⟩
      intro hyoung
      exact absurd (hyoung u (by simp)) (by omega)
    · rw [if_neg hold]
      refine ⟨fun h => absurd (hatomic.symm.trans h) (by simp), fun _ => ⟨hlast, ?_⟩⟩
      exact fun hyoung => hdate fun v hv => hyoung v (List.mem_append_left _ hv)

theorem dated_updates (atomic : Bool) (constructed : Tm) (us : List DateUpdate)
    (hnow : ∀ u ∈ us, u.now < 2^64) :
    Dated constructed us (us.foldl DateBuffer.update ⟨atomic, 0, constructed⟩) := by
  induction us using List.reverseRecOn with
  | nil => exact ⟨fun _ => .inl ⟨rfl, rfl⟩, fun _ => ⟨rfl, fun _ => rfl⟩⟩
  | append_singleton us u ih =>
    rw [List.foldl_append]
    exact (ih fun v hv => hnow v (List.mem_append_left _ hv)).update u (hnow u (by simp))

/-- What the buffer shows right after an update. -/
theorem Dated.shows (hb : Dated constructed us b) (u : DateUpdate) (hnow : u.now < 2^64)
    (hclock : ∀ v ∈ us, v.now ≤ u.now) :
    (b.update u).date = constructed ∧ u.now ≤ 500 ∨
      ∃ v ∈ us ++ [u], (b.update u).date = v.tm ∧ v.now ≤ u.now ∧ u.now ≤ v.now + 500 := by
  have hself : u ∈ us ++ [u] := by simp
  unfold DateBuffer.update
  cases hatomic : b.atomic with
  | true =>
    simp only [if_true]
    by_cases hold : 500 < (u.now + (2^64 - b.lastUpdate)) % 2^64
    · rw [if_pos hold]
      exact .inr ⟨u, hself, rfl, le_rfl, by omega⟩
    · rw [if_neg hold]
      rcases hb.atomic hatomic with ⟨hdate, hlast⟩ | ⟨v, hv, hdate, hlast⟩
      · rw [hlast, age_eq u.now 0 hnow (Nat.zero_le _)] at hold
        exact .inl ⟨hdate, by omega⟩
      · have hle := hclock v hv
        rw [hlast, age_eq u.now v.now hnow hle] at hold
        exact .inr ⟨v, List.mem_append_left _ hv, hdate, hle, by omega⟩
  | false =>
    obtain ⟨hlast, hdate⟩ := hb.plain hatomic
    rw [hlast, age_eq u.now 0 hnow (Nat.zero_le _), Nat.sub_zero]
    simp only [Bool.false_eq_true, if_false]
    by_cases hold : 500 ≤ u.now
    · rw [if_pos hold]
      exact .inr ⟨u, hself, rfl, le_rfl, by omega⟩
    · -- no update so far can have counted
      rw [if_neg hold]
      refine .inl ⟨hdate fun v hv => ?_, by omega⟩
      have hle := hclock v hv
      omega

end

theorem getBuffer_reads (b : DateBuffer) (h : b.date.Valid) :
    ∃ value, b.getBuffer = ascii "date: " ++ value ++ crlf ∧ b.getBuffer.length = 37 ∧
      readDate value = some b.date :=
  ⟨b.date.date, rfl, (updateBuffer_line b.date h).2.1, readDate_date b.date h⟩

/-- On a clock that does not go back, the line behind an update is the date of that moment or of one
at most half a second before it, and reads back as that time. -/
theorem date_line_fresh (atomic : Bool) (constructed : Tm) (us : List DateUpdate) (u : DateUpdate)
    (hconstructed : constructed.Valid) (hvalid : ∀ v ∈ us ++ [u], v.tm.Valid)
    (hnow : ∀ v ∈ us ++ [u], v.now < 2^64)
    (hclock : (us ++ [u]).Pairwise fun v w => v.now ≤ w.now) :
    ∃ value t,
      ((us ++ [u]).foldl DateBuffer.update ⟨atomic, 0, constructed⟩).getBuffer =
        ascii "date: " ++ value ++ crlf ∧
      ((us ++ [u]).foldl DateBuffer.update ⟨atomic, 0, constructed⟩).getBuffer.length = 37 ∧
      readDate value = some t ∧
      (t = constructed ∧ u.now ≤ 500 ∨
        ∃ v ∈ us ++ [u], t = v.tm ∧ v.now ≤ u.now ∧ u.now ≤ v.now + 500) := by
  have hdated := dated_updates atomic constructed us fun v hv => hnow v (List.mem_append_left _ hv)
  rw [List.pairwise_append] at hclock
  have hshows := hdated.shows u (hnow u (by simp)) fun v hv => hclock.2.2 v hv u (by simp)
  rw [List.foldl_append]
  simp only [List.foldl_cons, List.foldl_nil]
  have hdate : ((us.foldl DateBuffer.update ⟨atomic, 0, constructed⟩).update u).date.Valid := by
    rcases hshows with ⟨h, -⟩ | ⟨v, hv, h, -⟩
    · rw [h]
      exact hconstructed
    · rw [h]
      exact hvalid v hv
  obtain ⟨value, hline, hlen, hread⟩ := getBuffer_reads _ hdate
  exact ⟨value, _, hline, hlen, hread, hshows⟩

/-- The second update comes too early to count. -/
theorem date_line_fresh_cached :
    let noon : Tm := ⟨0, 0, 12, 15, 10, 94, 2⟩
    let later : Tm := ⟨1, 0, 12, 15, 10, 94, 2⟩
    ∃ value t,
      ([⟨1000, noon⟩, ⟨1400, later⟩].foldl DateBuffer.update ⟨true, 0, noon⟩).getBuffer =
        ascii "date: " ++ value ++ crlf ∧
      ([⟨1000, noon⟩, ⟨1400, later⟩].foldl DateBuffer.update ⟨true, 0, noon⟩).getBuffer.length = 37 ∧
      readDate value = some t ∧
      (t = noon ∧ 1400 ≤ 500 ∨ ∃ v ∈ ([⟨1000, noon⟩, ⟨1400, later⟩] : List DateUpdate),
        t = v.tm ∧ v.now ≤ 1400 ∧ 1400 ≤ v.now + 500) := by
  intro noon later
  exact date_line_fresh true noon [⟨1000, noon⟩] ⟨1400, later⟩ (by decide) (by simp; decide)
    (by simp) (by simp)

end Libnodecc.Http

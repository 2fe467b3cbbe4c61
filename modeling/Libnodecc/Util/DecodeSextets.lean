import Libnodecc.Util.DecodeBounds

namespace Libnodecc.Util.Base64

open Buffer Decoder

def alphabetValue (b : UInt8) : Option Nat :=
  if 'A'.toNat ≤ b.toNat ∧ b.toNat ≤ 'Z'.toNat then some (b.toNat - 'A'.toNat)
  else if 'a'.toNat ≤ b.toNat ∧ b.toNat ≤ 'z'.toNat then some (b.toNat - 'a'.toNat + 26)
  else if '0'.toNat ≤ b.toNat ∧ b.toNat ≤ '9'.toNat then some (b.toNat - '0'.toNat + 52)
  else if b.toNat = '+'.toNat ∨ b.toNat = '-'.toNat then some 62
  else if b.toNat = '/'.toNat ∨ b.toNat = '_'.toNat then some 63
  else none

def values (bs : Bytes) : List Nat := bs.filterMap alphabetValue

/-- `decode` gives the bytes of the sextets, whatever memory it is given, unless it is given
none. -/
def Decodes (buffer : View) : Prop :=
  ∀ malloc, decode malloc buffer = .ok (unbase64 (values buffer.bytes)) ∨
    Refuses malloc ∧ decode malloc buffer = .error .badAlloc

def Ascii (bs : Bytes) (m : Nat) : Prop := ∀ j < m, ∀ b ∈ group bs j, b.toNat < 128

/-- A group has no sextets, or there is at most one before it that waits for others, and then not
more than four with it. -/
def Closed (bs : Bytes) (j : Nat) : Prop :=
  values (group bs j) = [] ∨ (values (bs.take (4 * j))).length % 4 ≤ 1 ∧
    (values (bs.take (4 * j))).length % 4 + (values (group bs j)).length ≤ 4

/-- Every sequence of sextets that is cut by the end of a group ends there, and the characters
behind the last group have no byte in them. -/
structure Decodable (buffer : View) : Prop where
  address : 3 ≤ buffer.addr + buffer.size
  room : ¬ Overflows buffer
  ascii : Ascii buffer.bytes (buffer.size / 4)
  groups : ∀ j < buffer.size / 4, Closed buffer.bytes j
  last : values (rest buffer.bytes) = [] ∨ (values (rest buffer.bytes)).length = 1 ∧
    (values (buffer.bytes.take (4 * (buffer.size / 4)))).length % 4 = 0

theorem table_alphabet (n : Nat) (hn : n < 128) :
    alphabetValue (UInt8.ofNat n) =
      if tableValue (UInt8.ofNat n) ≤ 0x3F then some (tableValue (UInt8.ofNat n)) else none := by
  revert n
  decide +kernel

theorem alphabet_ascii (b : UInt8) (h : (alphabetValue b).isSome) : b.toNat < 128 := by
  have hall : ∀ n < 256, (alphabetValue (UInt8.ofNat n)).isSome → n < 128 := by decide +kernel
  have hb := hall b.toNat b.toNat_lt
  rw [UInt8.ofNat_toNat] at hb
  exact hb h

theorem taken_ascii (bs : Bytes) (h : ∀ b ∈ bs, b.toNat < 128) : taken bs = values bs := by
  induction bs with
  | nil => rfl
  | cons b bs ih =>
    have hb := table_alphabet b.toNat (h b (by simp))
    rw [UInt8.ofNat_toNat] at hb
    have htail := ih fun c hc => h c (by simp [hc])
    by_cases hv : tableValue b ≤ 0x3F
    · rw [if_pos hv] at hb
      simp only [values, taken, List.map_cons, List.filterMap_cons, hb] at htail ⊢
      rw [List.filter_cons_of_pos (by simpa using hv), htail]
    · rw [if_neg hv] at hb
      simp only [values, taken, List.map_cons, List.filterMap_cons, hb] at htail ⊢
      rw [List.filter_cons_of_neg (by simpa using hv), htail]

theorem values_append (bs bs' : Bytes) : values (bs ++ bs') = values bs ++ values bs' :=
  List.filterMap_append ..

theorem values_take (bs : Bytes) (j : Nat) :
    values (bs.take (4 * (j + 1))) = values (bs.take (4 * j)) ++ values (group bs j) := by
  rw [Nat.mul_succ, List.take_add, values_append]
  rfl

theorem values_group_length_le (bs : Bytes) (j : Nat) : (values (group bs j)).length ≤ 4 := by
  refine (List.length_filterMap_le _ _).trans ?_
  rw [group, List.length_take]
  omega

/-- In front of a group that is not closed there is a sextet that waits for others, and it gets
some. -/
theorem open_counts (bs : Bytes) (j : Nat) (hopen : ¬ Closed bs j) :
    0 < (values (group bs j)).length ∧ 1 ≤ (values (bs.take (4 * j))).length % 4 ∧
      (2 ≤ (values (bs.take (4 * j))).length % 4 ∨ (values (group bs j)).length = 4) := by
  have hle := values_group_length_le bs j
  unfold Closed at hopen
  rw [← List.length_eq_zero_iff] at hopen
  omega

theorem values_rest (bs : Bytes) :
    values bs = values (bs.take (4 * (bs.length / 4))) ++ values (rest bs) := by
  rw [rest, Nat.mul_comm, ← values_append, List.take_append_drop]

/-- The bytes in a register of up to four sextets. -/
theorem registerBytes_numeral (r t : Nat) (ht : t ≤ 4) :
    registerBytes r t = (numeral 256 (t - 1) (r / 2^(8 - 2 * t))).map UInt8.ofNat := by
  match t, ht with
  | 0, _ => rfl
  | 1, _ => rfl
  | 2, _ =>
    have h0 := and_mask_shiftRight r 8 4 0xff0 rfl
    simp only [registerBytes, h0, numeral, List.map_cons, List.map_nil, pow_zero, Nat.div_one]
    rfl
  | 3, _ =>
    have h0 := and_mask_shiftRight r 8 10 0x3fc00 rfl
    have h1 := and_mask_shiftRight r 8 2 0x3fc rfl
    simp only [registerBytes, h0, h1, numeral, List.map_cons, List.map_nil, Nat.div_div_eq_div_mul]
    rfl
  | 4, _ =>
    have h0 := and_mask_shiftRight r 8 16 0xff0000 rfl
    have h1 := and_mask_shiftRight r 8 8 0xff00 rfl
    have h2 := and_mask_shiftRight r 8 0 0xff rfl
    simp only [registerBytes, h0, h1, h2, numeral, List.map_cons, List.map_nil,
      Nat.div_div_eq_div_mul]
    rfl

theorem registerBytes_eq (front es : List Nat) (hes : es.length ≤ 4) :
    registerBytes (readDigits 64 0 (front ++ es) % 2^32) es.length = groupBytes es := by
  rw [registerBytes_numeral _ _ hes, groupBytes, readDigits_append, readDigits_acc,
    ← numeral_mod, ← numeral_mod 256 _ (readDigits 64 0 es / _)]
  generalize readDigits 64 0 front = x
  generalize readDigits 64 0 es = n
  congr 2
  generalize es.length = m at hes
  obtain rfl | rfl | rfl | rfl | rfl : m = 0 ∨ m = 1 ∨ m = 2 ∨ m = 3 ∨ m = 4 := by omega
  all_goals omega

structure Follows (g : Stage) (ds : List Nat) : Prop where
  bytes : g.bytes = unbase64 ds
  r : g.r = readDigits 64 0 ds % 2^32
  ri : g.ri = if ds.length % 4 ≤ 1 then ds.length % 4 else 1

theorem Follows.start : Follows (stage [] 0) [] := ⟨rfl, rfl, rfl⟩

theorem split_sextets (ds : List Nat) : ∃ front pending, ds = front ++ pending ∧
    front.length = 4 * (ds.length / 4) ∧ pending.length = ds.length % 4 := by
  refine ⟨ds.take (4 * (ds.length / 4)), ds.drop (4 * (ds.length / 4)),
    (List.take_append_drop _ _).symm, ?_, ?_⟩
  · rw [List.length_take]
    omega
  · rw [List.length_drop]
    omega

theorem Follows.flush {g : Stage} {ds : List Nat} (h : Follows g ds) (es : List Nat)
    (hes : es = [] ∨ ds.length % 4 ≤ 1 ∧ ds.length % 4 + es.length ≤ 4) :
    Follows (g.take es).flush (ds ++ es) := by
  have hlt : g.ri < 2^8 := by
    rw [h.ri]
    split_ifs <;> omega
  have hr32 : g.r < 2^32 := by
    rw [h.r]
    exact Nat.mod_lt _ (by decide)
  by_cases hnil : es = []
  · -- the register holds at most one sextet, and keeps it
    subst hnil
    have hone : g.ri = 0 ∨ g.ri = 1 := by
      rw [h.ri]
      split_ifs <;> omega
    have hflush : (g.take []).flush = g := by
      obtain ⟨r, ri, bytes⟩ := g
      obtain rfl | rfl := hone
      · simp [Stage.take, Stage.flush, Stage.kept, registerBytes]
      · simp [Stage.take, Stage.flush, Stage.kept, registerBytes]
    rw [hflush, List.append_nil]
    exact h
  · obtain ⟨hq, hsum⟩ := hes.resolve_left hnil
    obtain ⟨front, pending, hds, hfront, hpending⟩ := split_sextets ds
    have hlen : (pending ++ es).length = ds.length % 4 + es.length := by
      rw [List.length_append, hpending]
    have hri : (g.take es).ri = (pending ++ es).length := by
      rw [Stage.take_ri _ _ hlt, h.ri, if_pos hq, hlen]
      omega
    have hr : (g.take es).r = readDigits 64 0 (ds ++ es) % 2^32 := by
      rw [Stage.take_r _ _ hr32, h.r, readDigits_append, readDigits_acc, readDigits_acc 64
        (readDigits 64 0 ds), Nat.add_mod, Nat.mul_mod, Nat.mod_mod, ← Nat.mul_mod, ← Nat.add_mod]
    refine ⟨?_, hr, ?_⟩
    · have hgroup : registerBytes (g.take es).r (g.take es).ri = groupBytes (pending ++ es) := by
        rw [hr, hri, hds, List.append_assoc]
        exact registerBytes_eq front (pending ++ es) (by omega)
      have hnone : unbase64 pending = [] := by
        apply List.eq_nil_of_length_eq_zero
        rw [unbase64_length, hpending]
        omega
      change (g.take es).bytes ++ _ = _
      rw [Stage.take_bytes, hgroup, h.bytes, hds, List.append_assoc,
        unbase64_append (ds.length / 4) front pending hfront, hnone, List.append_nil,
        unbase64_append (ds.length / 4) front (pending ++ es) hfront,
        unbase64_short (pending ++ es) (by omega)]
    · change Stage.kept (g.take es).ri = _
      have htotal : (ds ++ es).length % 4 = (pending ++ es).length % 4 := by
        simp only [List.length_append, hpending]
        omega
      rw [hri, htotal, hlen]
      generalize ds.length % 4 + es.length = t at hsum
      obtain rfl | rfl | rfl | rfl | rfl : t = 0 ∨ t = 1 ∨ t = 2 ∨ t = 3 ∨ t = 4 := by omega
      all_goals rfl

theorem follows_stage (bs : Bytes) (j : Nat) (hascii : Ascii bs j)
    (hclosed : ∀ i < j, Closed bs i) : Follows (stage bs j) (values (bs.take (4 * j))) := by
  induction j with
  | zero => exact Follows.start
  | succ j ih =>
    have hstage := ih (fun i hi => hascii i (by omega)) fun i hi => hclosed i (by omega)
    have htaken := taken_ascii (group bs j) (hascii j (by omega))
    rw [values_take, stage, htaken]
    exact hstage.flush _ (hclosed j (by omega))

theorem unbase64_single (ds : List Nat) (d : Nat) (h : ds.length % 4 = 0) :
    unbase64 (ds ++ [d]) = unbase64 ds := by
  rw [unbase64_append (ds.length / 4) ds [d] (by omega)]
  exact List.append_nil _

/-- `decode` is right where no sequence of sextets goes on behind a group that cuts it. -/
theorem decodes_of_decodable (buffer : View) (h : Decodable buffer) : Decodes buffer := by
  intro malloc
  have hlen : buffer.bytes.length = buffer.size := rfl
  have hin := (inRoom_iff buffer).mpr ⟨h.address, h.room⟩
  have hbytes : (lastStage buffer.bytes).bytes = unbase64 (values buffer.bytes) := by
    have hfollows := follows_stage buffer.bytes (buffer.size / 4) h.ascii h.groups
    rw [lastStage, Stage.take_bytes, hlen, hfollows.bytes, values_rest buffer.bytes, hlen]
    rcases h.last with hnil | ⟨hone, hfour⟩
    · rw [hnil, List.append_nil]
    · obtain ⟨d, hd⟩ := List.length_eq_one_iff.mp hone
      rw [hd, unbase64_single _ d hfour]
  rcases decode_eq malloc buffer with hbad | ⟨-, hok⟩ | ⟨hout, -⟩
  · exact Or.inr hbad
  · rw [← hbytes]
    exact Or.inl hok
  · exact absurd hin hout

end Libnodecc.Util.Base64

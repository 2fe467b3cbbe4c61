import Libnodecc.Util.DecodeSextets

namespace Libnodecc.Util.Base64

open Buffer Decoder

/-- Whether a byte is in one of the alphabets, and whether it is below 128. -/
def sort (b : UInt8) : Bool × Bool := ((alphabetValue b).isSome, decide (b.toNat < 128))

def SameKind (buffer other : View) : Prop :=
  other.addr = buffer.addr ∧ other.bytes.map sort = buffer.bytes.map sort

theorem values_length (bs : Bytes) : (values bs).length = (bs.map sort).countP fun p => p.1 := by
  induction bs with
  | nil => rfl
  | cons b bs ih =>
    have hsort : (sort b).1 = (alphabetValue b).isSome := rfl
    rw [List.map_cons, List.countP_cons, hsort, ← ih]
    cases hv : alphabetValue b with
    | none => simp [values, hv]
    | some v => simp [values, hv]

theorem values_length_congr {bs bs' : Bytes} (h : bs.map sort = bs'.map sort) :
    (values bs).length = (values bs').length := by
  rw [values_length, values_length, h]

section
variable {bs bs' : Bytes} (h : bs.map sort = bs'.map sort)
include h

theorem group_sort (j : Nat) : (group bs j).map sort = (group bs' j).map sort := by
  simp only [group, List.map_take, List.map_drop, h]

theorem take_sort (n : Nat) : (bs.take n).map sort = (bs'.take n).map sort := by
  simp only [List.map_take, h]

theorem closed_congr (j : Nat) (hc : Closed bs' j) : Closed bs j := by
  have hgroup := values_length_congr (group_sort h j)
  have htake := values_length_congr (take_sort h (4 * j))
  unfold Closed at hc ⊢
  rw [← List.length_eq_zero_iff] at hc ⊢
  rwa [hgroup, htake]

theorem ascii_congr (m : Nat) (ha : Ascii bs' m) : Ascii bs m := by
  intro j hj b hb
  have hmem : sort b ∈ (group bs' j).map sort := by
    rw [← group_sort h j]
    exact List.mem_map_of_mem hb
  obtain ⟨b', hb', heq⟩ := List.mem_map.mp hmem
  have hlt : decide (b'.toNat < 128) = decide (b.toNat < 128) := congrArg Prod.snd heq
  exact of_decide_eq_true (hlt ▸ decide_eq_true (ha j hj b' hb'))

end

/-- `A` in place of all characters of the alphabets. -/
def blank (bs : Bytes) : Bytes := bs.map fun b => if (alphabetValue b).isSome then 65 else b

theorem alphabet_sort (b : UInt8) (h : (alphabetValue b).isSome) : sort b = (true, true) := by
  rw [sort, h, decide_eq_true (alphabet_ascii b h)]

theorem blank_sort (bs : Bytes) : (blank bs).map sort = bs.map sort := by
  rw [blank, List.map_map]
  apply List.map_congr_left
  intro b _
  by_cases hb : (alphabetValue b).isSome
  · rw [Function.comp_apply, if_pos hb, alphabet_sort b hb]
    rfl
  · rw [Function.comp_apply, if_neg hb]

theorem values_blank (bs : Bytes) : values (blank bs) = List.replicate (values bs).length 0 := by
  induction bs with
  | nil => rfl
  | cons b bs ih =>
    have hcons : blank (b :: bs) = (if (alphabetValue b).isSome then 65 else b) :: blank bs := rfl
    have hzero : alphabetValue 65 = some 0 := rfl
    rw [hcons]
    cases hb : alphabetValue b with
    | none =>
      simp only [values, Option.isSome_none, Bool.false_eq_true, if_false, List.filterMap_cons, hb]
      exact ih
    | some v =>
      simp only [values, Option.isSome_some, if_true, List.filterMap_cons, hb, hzero,
        List.length_cons, List.replicate_succ]
      exact congrArg _ ih

theorem last_value (bs : Bytes) (h : values bs ≠ []) : ∃ front b back, bs = front ++ b :: back ∧
    (alphabetValue b).isSome ∧ values back = [] := by
  induction bs with
  | nil => exact absurd rfl h
  | cons b bs ih =>
    by_cases hbs : values bs = []
    · refine ⟨[], b, bs, rfl, ?_, hbs⟩
      by_contra hb
      have hnone : alphabetValue b = none := by simpa using hb
      apply h
      simp only [values, List.filterMap_cons, hnone]
      exact hbs
    · obtain ⟨front, c, back, rfl, hc, hback⟩ := ih hbs
      exact ⟨b :: front, c, back, rfl, hc, hback⟩

/-- A string of the same kind whose sextets are zero, except for the last one of the first `n`
bytes, which is one. -/
theorem exists_respelled (bs : Bytes) (n : Nat) (hn : n ≤ bs.length) (h : values (bs.take n) ≠ []) :
    ∃ bs' : Bytes, bs'.map sort = bs.map sort ∧
      values (bs'.take n) = List.replicate ((values (bs.take n)).length - 1) 0 ++ [1] ∧
      bs'.drop n = blank (bs.drop n) := by
  obtain ⟨front, b, back, htake, hb, hback⟩ := last_value _ h
  have hone : alphabetValue 66 = some 1 := rfl
  have hlen : (values (bs.take n)).length = (values front).length + 1 := by
    obtain ⟨v, hv⟩ := Option.isSome_iff_exists.mp hb
    rw [htake, values_append]
    simp only [values, List.filterMap_cons, hv, List.length_append, List.length_cons] at hback ⊢
    rw [hback]
    rfl
  have hpos : (blank front ++ 66 :: blank back).length = n := by
    have hcut := congrArg List.length htake
    rw [List.length_take, List.length_append, List.length_cons] at hcut
    simp only [List.length_append, List.length_cons, blank, List.length_map]
    omega
  refine ⟨(blank front ++ 66 :: blank back) ++ blank (bs.drop n), ?_, ?_, ?_⟩
  · have h66 : sort 66 = sort b := by
      rw [alphabet_sort b hb]
      rfl
    conv_rhs => rw [← List.take_append_drop n bs, htake]
    simp only [List.map_append, List.map_cons, blank_sort, h66]
  · rw [List.take_left' hpos, values_append, values_blank, hlen, Nat.add_sub_cancel]
    simp only [values, List.filterMap_cons, hone]
    have hnone := values_blank back
    rw [hback] at hnone
    rw [List.append_cancel_left_eq]
    exact congrArg (List.cons 1) hnone
  · exact List.drop_left' hpos

/-- The register has taken a one and `i` zeros, but its count does not reach the one; where
`carried`, it may reach it. -/
def Behind (carried : Prop) (g : Stage) : Prop :=
  ∃ i, g.r = readDigits 64 0 (1 :: List.replicate i 0) % 2^32 ∧ g.ri < 2^8 ∧
    (g.ri ≤ i ∨ g.ri = i + 1 ∧ (carried ∨ 5 ≤ g.ri))

theorem groupBytes_zeros (t : Nat) (ht : t ≤ 4) :
    ∀ b ∈ groupBytes (List.replicate t 0), b = 0 := by
  match t, ht with
  | 0, _ => decide +kernel
  | 1, _ => decide +kernel
  | 2, _ => decide +kernel
  | 3, _ => decide +kernel
  | 4, _ => decide +kernel

theorem groupBytes_one (i : Nat) (hi : i ≤ 3) :
    ∀ b ∈ groupBytes (1 :: List.replicate i 0), b = 0 ∨ b = 4 := by
  match i, hi with
  | 0, _ => decide +kernel
  | 1, _ => decide +kernel
  | 2, _ => decide +kernel
  | 3, _ => decide +kernel

section
variable {carried : Prop} {g : Stage}

theorem Behind.take (h : Behind carried g) (k : Nat) :
    Behind carried (g.take (List.replicate k 0)) := by
  induction k generalizing g with
  | zero => exact h
  | succ k ih =>
    obtain ⟨i, hr, hlt, hri⟩ := h
    apply ih (g := g.shift 0)
    refine ⟨i + 1, ?_, Nat.mod_lt _ (by decide), ?_⟩
    · rw [List.replicate_succ', ← List.cons_append, readDigits_concat]
      simp only [Stage.shift, hr]
      omega
    · simp only [Stage.shift]
      by_cases hwrap : g.ri + 1 = 2^8
      · rw [hwrap, Nat.mod_self]
        exact Or.inl (Nat.zero_le _)
      · rw [Nat.mod_eq_of_lt (by omega)]
        rcases hri with hle | ⟨heq, hcarried | hfive⟩
        · exact Or.inl (by omega)
        · exact Or.inr ⟨by omega, Or.inl hcarried⟩
        · exact Or.inr ⟨by omega, Or.inr (by omega)⟩

theorem Behind.flush (h : Behind carried g) : Behind carried g.flush := by
  obtain ⟨i, hr, hlt, hri⟩ := h
  refine ⟨i, hr, Stage.flush_ri_lt g hlt, ?_⟩
  change Stage.kept g.ri ≤ i ∨ Stage.kept g.ri = i + 1 ∧ (carried ∨ 5 ≤ Stage.kept g.ri)
  unfold Stage.kept
  split
  · left
    omega
  · left
    omega
  · left
    omega
  · exact hri

theorem Behind.registerBytes (h : Behind carried g) :
    ∀ b ∈ Decoder.registerBytes g.r g.ri, b = 0 ∨ carried ∧ b = 4 := by
  obtain ⟨i, hr, -, hri⟩ := h
  by_cases h4 : g.ri ≤ 4
  · rcases hri with hle | ⟨heq, hcarried⟩
    · have hsplit : List.replicate i 0 = List.replicate (i - g.ri) 0 ++ List.replicate g.ri 0 := by
        rw [← List.replicate_add]
        congr 1
        omega
      have hbytes := registerBytes_eq (1 :: List.replicate (i - g.ri) 0) (List.replicate g.ri 0)
        (by simpa using h4)
      rw [List.cons_append, ← hsplit, ← hr, List.length_replicate] at hbytes
      rw [hbytes]
      intro b hb
      exact Or.inl (groupBytes_zeros g.ri h4 b hb)
    · have hbytes := registerBytes_eq [] (1 :: List.replicate i 0) (by simp; omega)
      rw [List.nil_append, ← hr, List.length_cons, List.length_replicate, ← heq] at hbytes
      rw [hbytes]
      intro b hb
      exact (groupBytes_one i (by omega) b hb).imp_right fun hfour =>
        ⟨hcarried.resolve_right (by omega), hfour⟩
  · have hnone : (Decoder.registerBytes g.r g.ri).length = 0 := by
      rw [registerBytes_length, if_neg (by omega)]
    rw [List.eq_nil_of_length_eq_zero hnone]
    intro b hb
    cases hb

end

/-- The groups of zeros behind a register that holds a one give no other bytes than zero and
four. -/
theorem behind_stage {carried : Prop} (bs : Bytes) (j m : Nat) (hjm : j ≤ m)
    (hzeros : ∀ i, j ≤ i → i < m → ∃ k, taken (group bs i) = List.replicate k 0)
    (h : Behind carried (stage bs j)) : Behind carried (stage bs m) ∧
      ∃ more, (stage bs m).bytes = (stage bs j).bytes ++ more ∧
        ∀ b ∈ more, b = 0 ∨ carried ∧ b = 4 := by
  induction m, hjm using Nat.le_induction with
  | base => exact ⟨h, [], (List.append_nil _).symm, fun b hb => by cases hb⟩
  | succ m hjm ih =>
    obtain ⟨hm, more, hbytes, hmore⟩ := ih fun i hi hlt => hzeros i hi (by omega)
    obtain ⟨k, hk⟩ := hzeros m hjm (by omega)
    have htake := hm.take k
    rw [← hk] at htake
    generalize hg : (stage bs m).take (taken (group bs m)) = g at htake
    have hgbytes : g.bytes = (stage bs j).bytes ++ more := by
      rw [← hg, Stage.take_bytes, hbytes]
    have hnext : stage bs (m + 1) = g.flush := congrArg Stage.flush hg
    rw [hnext]
    refine ⟨htake.flush, more ++ Decoder.registerBytes g.r g.ri, ?_, ?_⟩
    · change g.bytes ++ _ = _
      rw [hgbytes, List.append_assoc]
    · intro b hb
      rcases List.mem_append.mp hb with hb | hb
      · exact hmore b hb
      · exact htake.registerBytes b hb

/-- The byte that a one gives where zeros follow: it depends on the place of the one in its
group. -/
theorem unbase64_one (a q l : Nat) (hq : 1 ≤ q) (h3 : q ≤ 3) (hl : 0 < l) :
    (unbase64 (List.replicate (4 * a + q - 1) 0 ++ [1] ++ List.replicate l 0))[3 * a + q - 1]? =
      some (UInt8.ofNat (4^q)) := by
  have hfront : List.replicate (4 * a + q - 1) 0 =
      List.replicate (4 * a) 0 ++ List.replicate (q - 1) 0 := by
    rw [← List.replicate_add]
    congr 1
    omega
  have hlen : (unbase64 (List.replicate (4 * a) 0)).length = 3 * a := by
    rw [unbase64_length, List.length_replicate]
    omega
  have hindex : 3 * a + q - 1 - 3 * a = q - 1 := by omega
  rw [hfront, List.append_assoc, List.append_assoc, unbase64_append a _ _ List.length_replicate,
    List.getElem?_append_right (by omega), hlen, hindex]
  match q, hq, h3, l, hl with
  | 1, _, _, 1, _ => rfl
  | 1, _, _, 2, _ => rfl
  | 1, _, _, l + 3, _ => rfl
  | 2, _, _, 1, _ => rfl
  | 2, _, _, l + 2, _ => rfl
  | 3, _, _, l + 1, _ => rfl

theorem blank_group (bs bs' : Bytes) (j i : Nat) (hi : j ≤ i)
    (h : bs'.drop (4 * j) = blank (bs.drop (4 * j))) : group bs' i = blank (group bs i) := by
  have hsum : 4 * i = 4 * j + 4 * (i - j) := by omega
  have hdrop := congrArg (List.drop (4 * (i - j))) h
  rw [List.drop_drop, ← hsum] at hdrop
  rw [group, hdrop, group, hsum, ← List.drop_drop]
  simp only [blank, List.map_take, List.map_drop]

/-- The register behind the sextets of a string with one sextet that is not zero, its last one. -/
theorem readDigits_respelled (n : Nat) :
    readDigits 64 0 (List.replicate n 0 ++ [1]) = 1 := by
  have hzero : readDigits 64 0 (List.replicate n 0) = 0 := by
    induction n with
    | zero => rfl
    | succ n ih => exact ih
  rw [readDigits_concat, hzero]

/-- From a group that is not closed on, the decoder gives no other bytes than zero and four. -/
theorem behind_open (bs : Bytes) (j m n k : Nat) (hjm : j < m)
    (hfollows : Follows (stage bs j) (List.replicate (n - 1) 0 ++ [1]))
    (hk : taken (group bs j) = List.replicate k 0)
    (hzeros : ∀ i, j ≤ i → i < m → ∃ k, taken (group bs i) = List.replicate k 0)
    (hn : 1 ≤ n % 4) (hopen : 2 ≤ n % 4 ∨ k = 4) :
    ∃ more, (stage bs m).bytes = (stage bs j).bytes ++ more ∧
      ∀ b ∈ more, b = 0 ∨ 2 ≤ n % 4 ∧ b = 4 := by
  have hlen : (List.replicate (n - 1) 0 ++ [1]).length = n := by
    simp only [List.length_append, List.length_replicate, List.length_singleton]
    omega
  have hr := hfollows.r
  have hri : (stage bs j).ri = 1 := by
    rw [hfollows.ri, hlen]
    split_ifs <;> omega
  rw [readDigits_respelled] at hr
  by_cases hq : 2 ≤ n % 4
  · have hbehind : Behind (2 ≤ n % 4) (stage bs j) :=
      ⟨0, hr, by omega, Or.inr ⟨hri, Or.inl hq⟩⟩
    exact (behind_stage bs j m (by omega) hzeros hbehind).2
  · obtain rfl := hopen.resolve_left hq
    generalize hg : (stage bs j).take (taken (group bs j)) = g
    have hgri : g.ri = 5 := by
      rw [← hg, Stage.take_ri _ _ (by omega), hri, hk, List.length_replicate]
      rfl
    have hgr : g.r = readDigits 64 0 (1 :: List.replicate 4 0) % 2^32 := by
      rw [← hg, Stage.take_r _ _ (by omega), hr, hk]
      rfl
    have hbehind : Behind (2 ≤ n % 4) g := ⟨4, hgr, by omega, Or.inr ⟨hgri, Or.inr (by omega)⟩⟩
    have hnext : stage bs (j + 1) = g.flush := congrArg Stage.flush hg
    have hflush := hbehind.flush
    rw [← hnext] at hflush
    obtain ⟨-, more, hbytes, hmore⟩ := behind_stage bs (j + 1) m hjm
      (fun i hi hlt => hzeros i (by omega) hlt) hflush
    refine ⟨more, ?_, hmore⟩
    have hnone : g.flush.bytes = (stage bs j).bytes := by
      change g.bytes ++ Decoder.registerBytes g.r g.ri = _
      rw [hgri, ← hg, Stage.take_bytes]
      exact List.append_nil _
    rw [hbytes, hnext, hnone]

theorem one_not_behind {q : Nat} {more : Bytes} (hq : 1 ≤ q) (h3 : q ≤ 3)
    (hmore : ∀ b ∈ more, b = 0 ∨ 2 ≤ q ∧ b = 4) : UInt8.ofNat (4^q) ∉ more := by
  intro hmem
  have hbyte := hmore _ hmem
  revert hbyte
  match q, hq, h3 with
  | 1, _, _ => decide
  | 2, _, _ => decide
  | 3, _, _ => decide

theorem stage_of_decodes (buffer : View) (h : Decodes buffer) : InRoom buffer ∧
    (stage buffer.bytes (buffer.size / 4)).bytes = unbase64 (values buffer.bytes) := by
  rcases decode_eq .zeroed buffer with ⟨hrefuses, -⟩ | ⟨hin, hok⟩ | ⟨-, hund⟩
  · exact absurd hrefuses zeroed_serves
  · rw [lastStage, Stage.take_bytes] at hok
    rcases h .zeroed with hok' | ⟨-, hbad⟩
    · exact ⟨hin, Except.ok.inj (hok.symm.trans hok')⟩
    · cases hok.symm.trans hbad
  · rcases h .zeroed with hok' | ⟨-, hbad⟩
    · cases hund.symm.trans hok'
    · cases hund.symm.trans hbad

/-- Where a group is not closed, there are characters of the same kind that are not decoded. -/
theorem not_decodes_of_open (buffer : View) (hascii : Ascii buffer.bytes (buffer.size / 4))
    (j : Nat) (hj : j < buffer.size / 4) (hbefore : ∀ i < j, Closed buffer.bytes i)
    (hopen : ¬ Closed buffer.bytes j) : ∃ other, SameKind buffer other ∧ ¬ Decodes other := by
  have hlen : buffer.bytes.length = buffer.size := rfl
  obtain ⟨hpos, hq, hlong⟩ := open_counts buffer.bytes j hopen
  obtain ⟨n, hn⟩ : ∃ n, n = (values (buffer.bytes.take (4 * j))).length := ⟨_, rfl⟩
  obtain ⟨k, hk⟩ : ∃ k, k = (values (group buffer.bytes j)).length := ⟨_, rfl⟩
  rw [← hk] at hpos hlong
  rw [← hn] at hq hlong
  obtain ⟨bs, hsort, hfront, hback⟩ := exists_respelled buffer.bytes (4 * j) (by omega) (by
    rw [Ne, ← List.length_eq_zero_iff, ← hn]
    omega)
  have hsize : bs.length = buffer.bytes.length := by
    have h := congrArg List.length hsort
    rwa [List.length_map, List.length_map] at h
  have hlt : bs.length < 2^63 := hsize ▸ buffer.length_lt
  have hfits : buffer.addr + bs.length < 2^64 := hsize ▸ buffer.fits
  refine ⟨⟨⟨bs, hlt⟩, buffer.addr, hfits⟩, ⟨rfl, hsort⟩, ?_⟩
  rw [← hn] at hfront
  have hascii' := ascii_congr hsort (buffer.size / 4) hascii
  have hfollows := follows_stage bs j (fun i hi => hascii' i (by omega)) fun i hi =>
    closed_congr hsort i (hbefore i hi)
  rw [hfront] at hfollows
  have hgroup (i : Nat) (hi : j ≤ i) (him : i < buffer.size / 4) :
      taken (group bs i) = List.replicate (values (group buffer.bytes i)).length 0 := by
    rw [taken_ascii _ (hascii' i him), blank_group buffer.bytes bs j i hi hback, values_blank]
  have hk' := hgroup j (Nat.le_refl j) hj
  rw [← hk] at hk'
  obtain ⟨more, hbytes, hmore⟩ := behind_open bs j (buffer.size / 4) n k hj hfollows hk'
    (fun i hi him => ⟨_, hgroup i hi him⟩) hq hlong
  intro hdecodes
  have hdiv : bs.length / 4 = buffer.size / 4 := by rw [hsize, hlen]
  have hsame := (stage_of_decodes _ hdecodes).2
  change (stage bs (bs.length / 4)).bytes = unbase64 (values bs) at hsame
  rw [hdiv] at hsame
  obtain ⟨l, hl⟩ : ∃ l, l = (values (buffer.bytes.drop (4 * j))).length := ⟨_, rfl⟩
  have hlpos : 0 < l := by
    rw [hl, ← List.take_append_drop 4 (buffer.bytes.drop (4 * j)), values_append,
      List.length_append]
    change 0 < (values (group buffer.bytes j)).length + _
    omega
  have hvalues : values bs = List.replicate (n - 1) 0 ++ [1] ++ List.replicate l 0 := by
    rw [← List.take_append_drop (4 * j) bs, values_append, hfront, hback, values_blank, hl]
  have hbyte := unbase64_one (n / 4) (n % 4) l hq (by omega) hlpos
  have hnsum : 4 * (n / 4) + n % 4 = n := Nat.div_add_mod n 4
  rw [hnsum, ← hvalues, ← hsame, hbytes, List.getElem?_append_right (by
    rw [hfollows.bytes, unbase64_length, List.length_append, List.length_replicate,
      List.length_singleton]
    omega)] at hbyte
  exact one_not_behind hq (by omega) hmore (List.mem_of_getElem? hbyte)

/-- Where the characters behind the groups have bytes in them, these are not in the result. -/
theorem not_decodes_of_last (buffer : View) (hascii : Ascii buffer.bytes (buffer.size / 4))
    (hgroups : ∀ j < buffer.size / 4, Closed buffer.bytes j)
    (hlast : ¬ (values (rest buffer.bytes) = [] ∨ (values (rest buffer.bytes)).length = 1 ∧
      (values (buffer.bytes.take (4 * (buffer.size / 4)))).length % 4 = 0)) :
    ¬ Decodes buffer := by
  intro hdecodes
  have hlen : buffer.bytes.length = buffer.size := rfl
  have hfollows := follows_stage buffer.bytes (buffer.size / 4) hascii hgroups
  have hsame := (stage_of_decodes buffer hdecodes).2
  rw [hfollows.bytes, values_rest buffer.bytes, hlen] at hsame
  have hlength := congrArg List.length hsame
  rw [unbase64_length, unbase64_length, List.length_append] at hlength
  rw [← List.length_eq_zero_iff] at hlast
  generalize (values (buffer.bytes.take (4 * (buffer.size / 4)))).length = n at hlength hlast
  generalize (values (rest buffer.bytes)).length = k at hlength hlast
  obtain ⟨a, q, rfl, hq⟩ : ∃ a q, n = 4 * a + q ∧ q < 4 :=
    ⟨n / 4, n % 4, (Nat.div_add_mod n 4).symm, Nat.mod_lt _ (by decide)⟩
  obtain rfl | rfl | rfl | rfl : q = 0 ∨ q = 1 ∨ q = 2 ∨ q = 3 := by omega
  all_goals omega

/-- `decode` gives the bytes of the sextets where no sequence of them goes on behind a group that
cuts it. Where one does, it fails for a string with the same characters in the alphabets. -/
theorem decode_iff (buffer : View) : (Decodable buffer → Decodes buffer) ∧
    (Ascii buffer.bytes (buffer.size / 4) → ¬ Decodable buffer →
      ∃ other, SameKind buffer other ∧ ¬ Decodes other) := by
  refine ⟨decodes_of_decodable buffer, fun hascii hnot => ?_⟩
  by_cases hgroups : ∀ j < buffer.size / 4, Closed buffer.bytes j
  · refine ⟨buffer, ⟨rfl, rfl⟩, ?_⟩
    by_cases hin : InRoom buffer
    · apply not_decodes_of_last buffer hascii hgroups
      intro hlast
      obtain ⟨haddress, hroom⟩ := (inRoom_iff buffer).mp hin
      exact hnot ⟨haddress, hroom, hascii, hgroups, hlast⟩
    · exact fun hdecodes => hin (stage_of_decodes buffer hdecodes).1
  · obtain ⟨j, hj, hbefore⟩ : ∃ j, (j < buffer.size / 4 ∧ ¬ Closed buffer.bytes j) ∧
        ∀ i < j, ¬ (i < buffer.size / 4 ∧ ¬ Closed buffer.bytes i) := by
      have hopen : ∃ j, j < buffer.size / 4 ∧ ¬ Closed buffer.bytes j := by
        by_contra hall
        exact hgroups fun j hj => by
          by_contra hc
          exact hall ⟨j, hj, hc⟩
      classical
      exact ⟨Nat.find hopen, Nat.find_spec hopen, fun i hi => Nat.find_min hopen hi⟩
    refine not_decodes_of_open buffer hascii j hj.1 (fun i hi => ?_) hj.2
    by_contra hc
    exact hbefore i hi ⟨by omega, hc⟩

/-- `Zm9vYg==` with a line break in it. -/
theorem decode_iff_foob : decode .zeroed
    ⟨⟨[90, 109, 57, 118, 10, 89, 103, 61, 61], by decide⟩, 4097, by decide⟩ =
      .ok [102, 111, 111, 98] := by
  have hin : InRoom ⟨⟨[90, 109, 57, 118, 10, 89, 103, 61, 61], by decide⟩, 4097, by decide⟩ := by
    unfold InRoom
    decide +kernel
  obtain ⟨haddress, hroom⟩ := (inRoom_iff _).mp hin
  have hdecodes := (decode_iff _).1 ⟨haddress, hroom, by unfold Ascii; decide +kernel,
    by unfold Closed; decide +kernel, by decide +kernel⟩
  have hvalues : unbase64 (values [90, 109, 57, 118, 10, 89, 103, 61, 61]) =
      [102, 111, 111, 98] := by
    decide +kernel
  rcases hdecodes .zeroed with hok | ⟨hrefuses, -⟩
  · exact hok.trans (congrArg Except.ok hvalues)
  · exact absurd hrefuses zeroed_serves

/-- `QQ` gives nothing. -/
theorem decode_drops_last : decode .zeroed ⟨⟨[81, 81], by decide⟩, 4096, by decide⟩ = .ok [] ∧
    unbase64 (values [81, 81]) = [65] := by
  decide +kernel

end Libnodecc.Util.Base64

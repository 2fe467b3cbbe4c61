import Libnodecc.Events.Emitter
import Libnodecc.Framework.Segment

namespace Libnodecc.Events

/-- The pointer stored in a handler, as the list library reads it. -/
def Emitter.next (em : Emitter) (k : Nat) : Option (Option Nat) :=
  (em.handlers k).map Handler.next

def Emitter.headOf (em : Emitter) (symbol : Nat) : Option Nat :=
  (em.events.lookup symbol).bind Root.head

/-- The intrusive lists hold exactly the registered handlers, in order. -/
structure Linked (em : Emitter) (registry : Nat → List Nat) : Prop where
  chain : ∀ symbol, Chain em.next (em.headOf symbol) (registry symbol)
  tail : ∀ symbol r, em.events.lookup symbol = some r → r.tail = (registry symbol).getLast?
  entry : ∀ symbol r, em.events.lookup symbol = some r → registry symbol ≠ []
  nodup : ∀ symbol, (registry symbol).Nodup
  owner : ∀ a symbol symbol', a ∈ registry symbol → a ∈ registry symbol' → symbol = symbol'
  loose : ∀ a h, em.handlers a = some h → (∀ symbol, a ∉ registry symbol) → h.next = none
  fresh : ∀ a, em.created ≤ a → em.handlers a = none

section
variable {em : Emitter} {registry : Nat → List Nat}

theorem Linked.allocated (hl : Linked em registry) (symbol a : Nat) (ha : a ∈ registry symbol) :
    ∃ h, em.handlers a = some h := by
  obtain ⟨q, hq, -⟩ := chain_mem _ _ a (hl.chain symbol) ha
  obtain ⟨h, hh, -⟩ := Option.map_eq_some_iff.mp hq
  exact ⟨h, hh⟩

theorem Linked.lt_created (hl : Linked em registry) (symbol a : Nat) (ha : a ∈ registry symbol) :
    a < em.created := by
  obtain ⟨h, hh⟩ := hl.allocated symbol a ha
  by_contra hge
  rw [hl.fresh a (by omega)] at hh
  cases hh

theorem Linked.length_le (hl : Linked em registry) (symbol : Nat) :
    (registry symbol).length ≤ em.created := by
  have hsub : registry symbol ⊆ List.range em.created := by
    intro a ha
    exact List.mem_range.mpr (hl.lt_created symbol a ha)
  have h := (List.subperm_of_subset (hl.nodup symbol) hsub).length_le
  simpa using h

theorem Linked.empty_of_absent (hl : Linked em registry) (symbol : Nat)
    (h : em.events.lookup symbol = none) : registry symbol = [] := by
  have hc := chain_head _ _ (hl.chain symbol)
  simp only [Emitter.headOf, h, Option.bind_none] at hc
  exact List.head?_eq_none_iff.mp hc.symm

end

def Emitter.guards (em : Emitter) (k : Nat) : Option Nat := (em.handlers k).map Handler.refCount

/-- From `em` to `em'` exactly the handlers `ks` were discarded: those without a guard are
deleted. The others may have been relinked. -/
structure Removes (em em' : Emitter) (ks : List Nat) : Prop where
  created : em'.created = em.created
  kept : ∀ a, a ∉ ks → em'.guards a = em.guards a
  gone : ∀ a, a ∈ ks → em'.guards a = (em.guards a).filter (· ≠ 0)
  deleted : ∃ ds : List Nat, em'.deleted = em.deleted ++ ds.map (fun a => (a, 0)) ∧ ds.Nodup ∧
    ∀ a ∈ ds, a ∈ ks ∧ em.guards a = some 0

theorem Removes.refl (em : Emitter) : Removes em em [] :=
  ⟨rfl, fun _ _ => rfl, fun a ha => absurd ha (by simp), [], by simp, by simp, by simp⟩

theorem Removes.trans (em em' em'' : Emitter) (ks ks' : List Nat) (h : Removes em em' ks)
    (h' : Removes em' em'' ks') (hd : ks.Disjoint ks') : Removes em em'' (ks ++ ks') := by
  obtain ⟨ds, hds, hn, hm⟩ := h.deleted
  obtain ⟨ds', hds', hn', hm'⟩ := h'.deleted
  have before (a : Nat) (ha : a ∈ ks') : em'.guards a = em.guards a :=
    h.kept a (fun hx => hd hx ha)
  refine ⟨h'.created.trans h.created, ?_, ?_, ds ++ ds', ?_, ?_, ?_⟩
  · intro a ha
    simp only [List.mem_append, not_or] at ha
    exact (h'.kept a ha.2).trans (h.kept a ha.1)
  · intro a ha
    rcases List.mem_append.mp ha with ha | ha
    · rw [h'.kept a (fun hx => hd ha hx), h.gone a ha]
    · rw [h'.gone a ha, before a ha]
  · rw [hds', hds]
    simp
  · refine List.nodup_append.mpr ⟨hn, hn', ?_⟩
    intro a ha b hb hab
    subst hab
    exact hd (hm a ha).1 (hm' a hb).1
  · intro a ha
    rcases List.mem_append.mp ha with ha | ha
    · exact ⟨List.mem_append_left _ (hm a ha).1, (hm a ha).2⟩
    · refine ⟨List.mem_append_right _ (hm' a ha).1, ?_⟩
      rw [← before a (hm' a ha).1]
      exact (hm' a ha).2

theorem setNext_spec (em : Emitter) (k : Nat) (p : Option Nat) (h : Handler)
    (hk : em.handlers k = some h) :
    em.setNext k p = some { em with
      handlers := Function.update em.handlers k (some ⟨p, h.refCount⟩) } := by
  simp [Emitter.setNext, Emitter.update, hk]

theorem setNext_removes (em em' : Emitter) (k : Nat) (p : Option Nat)
    (h : em.setNext k p = some em') : Removes em em' [] := by
  obtain ⟨x, hx, rfl⟩ := Option.map_eq_some_iff.mp h
  refine ⟨rfl, ?_, fun a ha => absurd ha (by simp), [], by simp, by simp, by simp⟩
  intro a _
  by_cases ha : a = k
  · subst ha
    simp [Emitter.guards, hx]
  · simp [Emitter.guards, ha]

/-- A discarded handler is deleted or keeps its guard and loses its successor. -/
theorem discard_spec (em : Emitter) (k : Nat) (h : Handler) (hk : em.handlers k = some h) :
    ∃ em', em.discard k = some em' ∧ em'.events = em.events ∧
      em'.handlers = Function.update em.handlers k
        (if h.refCount = 0 then none else some ⟨none, h.refCount⟩) ∧ Removes em em' [k] := by
  by_cases hz : h.refCount = 0
  · let em' : Emitter := { em with
      handlers := Function.update em.handlers k none
      deleted := em.deleted ++ [(k, h.refCount)] }
    refine ⟨em', by simp [Emitter.discard, Emitter.delete, hk, hz, em'], rfl, by simp [hz, em'],
      rfl, ?_, ?_, [k], by simp [hz, em'], by simp, ?_⟩
    · intro a ha
      have hne : a ≠ k := by simpa using ha
      simp [Emitter.guards, hne, em']
    · intro a ha
      obtain rfl : a = k := by simpa using ha
      simp [Emitter.guards, hk, hz, em', Option.filter_some]
    · intro a ha
      obtain rfl : a = k := by simpa using ha
      simp [Emitter.guards, hk, hz]
  · let em' : Emitter := { em with
      handlers := Function.update em.handlers k (some ⟨none, h.refCount⟩) }
    refine ⟨em', by simp [Emitter.discard, hk, hz, setNext_spec em k none h hk, em'], rfl,
      by simp [hz, em'], rfl, ?_, ?_, [], by simp [em'], by simp, by simp⟩
    · intro a ha
      have hne : a ≠ k := by simpa using ha
      simp [Emitter.guards, hne, em']
    · intro a ha
      obtain rfl : a = k := by simpa using ha
      simp [Emitter.guards, hk, hz, em', Option.filter_some]

theorem discard_next (em em' : Emitter) (k a : Nat) (h : Handler) (ha : a ≠ k)
    (he : em'.handlers = Function.update em.handlers k
      (if h.refCount = 0 then none else some ⟨none, h.refCount⟩)) : em'.next a = em.next a := by
  simp [Emitter.next, he, ha]

/-- The destructor's loop discards the whole list and nothing else. -/
theorem destroyRoot_spec (l : List Nat) (fuel : Nat) (em : Emitter) (p : Option Nat)
    (hc : Chain em.next p l) (hn : l.Nodup) (hf : l.length ≤ fuel) :
    ∃ em', em.destroyRoot fuel p = some em' ∧ em'.events = em.events ∧ Removes em em' l ∧
      (∀ a, a ∉ l → em'.handlers a = em.handlers a) ∧
      ∀ a ∈ l, ∀ h, em'.handlers a = some h → h.next = none := by
  induction l generalizing fuel em p with
  | nil =>
    cases hc
    exact ⟨em, by simp [Emitter.destroyRoot], rfl, Removes.refl em, fun _ _ => rfl, by simp⟩
  | cons c l ih =>
    obtain ⟨rfl, q, hq, hl⟩ := hc
    obtain ⟨h, hh, rfl⟩ := Option.map_eq_some_iff.mp hq
    obtain ⟨hcl, hn⟩ := List.nodup_cons.mp hn
    obtain ⟨em1, hd, hev, hhand, hrem⟩ := discard_spec em c h hh
    have other (a : Nat) (ha : a ≠ c) : em1.handlers a = em.handlers a := by
      rw [hhand, Function.update_of_ne ha]
    obtain ⟨fuel, rfl⟩ : ∃ n, fuel = n + 1 := ⟨fuel - 1, by simp at hf; omega⟩
    have hl1 : Chain em1.next h.next l := by
      apply segment_congr _ _ _ _ hl
      intro a ha
      exact discard_next em em1 c a h (fun he => hcl (he ▸ ha)) hhand
    obtain ⟨em2, hd2, hev2, hrem2, hout, hin⟩ := ih fuel em1 h.next hl1 hn (by simpa using hf)
    refine ⟨em2, ?_, hev2.trans hev, ?_, ?_, ?_⟩
    · simp only [Emitter.destroyRoot, hh, Option.bind_some, hd]
      exact hd2
    · exact Removes.trans em em1 em2 [c] l hrem hrem2 (by simpa using hcl)
    · intro a ha
      simp only [List.mem_cons, not_or] at ha
      exact (hout a ha.2).trans (other a ha.1)
    · intro a ha x hx
      rcases List.mem_cons.mp ha with rfl | ha
      · rw [hout a hcl, hhand, Function.update_self] at hx
        split_ifs at hx
        cases hx
        rfl
      · exact hin a ha x hx

theorem seek_next {em : Emitter} {p : Option Nat} {l : List Nat} (c fuel iter : Nat)
    (prev : Option Nat) (hc : Chain em.next p (c :: l)) (hne : c ≠ iter) (hf : 0 < fuel) :
    ∃ q, Chain em.next q l ∧ em.seek iter fuel p prev = em.seek iter (fuel - 1) q (some c) := by
  obtain ⟨rfl, q, hq, hl⟩ := hc
  obtain ⟨h, hh, rfl⟩ := Option.map_eq_some_iff.mp hq
  obtain ⟨fuel, rfl⟩ : ∃ n, fuel = n + 1 := ⟨fuel - 1, by omega⟩
  refine ⟨h.next, hl, ?_⟩
  simp only [Emitter.seek, if_neg hne, hh, Option.bind_some]
  rfl

/-- The loop of `off` stops at the handler, with its predecessor. -/
theorem seek_found (pre post : List Nat) (fuel iter : Nat) (em : Emitter) (p prev : Option Nat)
    (hc : Chain em.next p (pre ++ iter :: post)) (hn : iter ∉ pre) (hf : pre.length < fuel) :
    em.seek iter fuel p prev = some (some (pre.getLast?.or prev)) := by
  induction pre generalizing fuel p prev with
  | nil =>
    obtain ⟨rfl, -⟩ := hc
    obtain ⟨fuel, rfl⟩ : ∃ n, fuel = n + 1 := ⟨fuel - 1, by simp at hf; omega⟩
    simp [Emitter.seek]
  | cons c pre ih =>
    simp only [List.mem_cons, not_or] at hn
    simp only [List.length_cons] at hf
    obtain ⟨q, hl, hseek⟩ := seek_next c fuel iter prev hc (Ne.symm hn.1) (by omega)
    rw [hseek, ih (fuel - 1) q (some c) hl hn.2 (by omega)]
    cases pre with
    | nil => simp
    | cons b pre =>
      obtain ⟨x, hx⟩ : ∃ x, (b :: pre).getLast? = some x :=
        ⟨_, List.getLast?_eq_some_getLast (by simp)⟩
      rw [List.getLast?_cons_cons, hx]
      rfl

theorem seek_absent (l : List Nat) (fuel iter : Nat) (em : Emitter) (p prev : Option Nat)
    (hc : Chain em.next p l) (hn : iter ∉ l) (hf : l.length ≤ fuel) :
    em.seek iter fuel p prev = some none := by
  induction l generalizing fuel p prev with
  | nil =>
    cases hc
    simp [Emitter.seek]
  | cons c l ih =>
    simp only [List.mem_cons, not_or] at hn
    simp only [List.length_cons] at hf
    obtain ⟨q, hl, hseek⟩ := seek_next c fuel iter prev hc (Ne.symm hn.1) (by omega)
    rw [hseek]
    exact ih (fuel - 1) q (some c) hl hn.2 (by omega)

section
variable {em em' : Emitter} {registry : Nat → List Nat}

/-- An operation that only touches the list of `symbol`. -/
theorem Linked.replace (hl : Linked em registry) (symbol : Nat) (l : List Nat)
    (hother : ∀ t, t ≠ symbol → em'.events.lookup t = em.events.lookup t)
    (hnext : ∀ t, t ≠ symbol → ∀ a ∈ registry t, em'.next a = em.next a)
    (hchain : Chain em'.next (em'.headOf symbol) l)
    (hroot : ∀ r, em'.events.lookup symbol = some r → r.tail = l.getLast? ∧ l ≠ [])
    (hnodup : l.Nodup) (hmem : ∀ a ∈ l, ∀ t, t ≠ symbol → a ∉ registry t)
    (hloose : ∀ a h, em'.handlers a = some h → a ∉ l →
      h.next = none ∨ a ∉ registry symbol ∧ em.handlers a = some h)
    (hfresh : ∀ a, em'.created ≤ a → em'.handlers a = none) :
    Linked em' (Function.update registry symbol l) := by
  refine ⟨?_, ?_, ?_, ?_, ?_, ?_, hfresh⟩
  · intro t
    by_cases ht : t = symbol
    · subst ht
      rw [Function.update_self]
      exact hchain
    · rw [Function.update_of_ne ht, Emitter.headOf, hother t ht]
      exact segment_congr _ _ _ (hnext t ht) (hl.chain t)
  · intro t r hr
    by_cases ht : t = symbol
    · subst ht
      rw [Function.update_self]
      exact (hroot r hr).1
    · rw [Function.update_of_ne ht]
      exact hl.tail t r (by rw [← hother t ht]; exact hr)
  · intro t r hr
    by_cases ht : t = symbol
    · subst ht
      rw [Function.update_self]
      exact (hroot r hr).2
    · rw [Function.update_of_ne ht]
      exact hl.entry t r (by rw [← hother t ht]; exact hr)
  · intro t
    by_cases ht : t = symbol
    · subst ht
      rw [Function.update_self]
      exact hnodup
    · rw [Function.update_of_ne ht]
      exact hl.nodup t
  · intro a t u hat hau
    by_cases ht : t = symbol <;> by_cases hu : u = symbol
    · exact ht.trans hu.symm
    · subst ht
      rw [Function.update_self] at hat
      rw [Function.update_of_ne hu] at hau
      exact absurd hau (hmem a hat u hu)
    · subst hu
      rw [Function.update_self] at hau
      rw [Function.update_of_ne ht] at hat
      exact absurd hat (hmem a hau t ht)
    · rw [Function.update_of_ne ht] at hat
      rw [Function.update_of_ne hu] at hau
      exact hl.owner a t u hat hau
  · intro a h ha hnone
    have hal : a ∉ l := by simpa using hnone symbol
    rcases hloose a h ha hal with hn | ⟨hout, ha⟩
    · exact hn
    · apply hl.loose a h ha
      intro t
      by_cases ht : t = symbol
      · rwa [ht]
      · have hat := hnone t
        rwa [Function.update_of_ne ht] at hat

theorem Linked.ne_created (hl : Linked em registry) (symbol a : Nat) (ha : a ∈ registry symbol) :
    a ≠ em.created := Nat.ne_of_lt (hl.lt_created symbol a ha)

theorem Linked.push_nodup (hl : Linked em registry) (symbol : Nat) :
    (registry symbol ++ [em.created]).Nodup := by
  rw [List.nodup_append]
  refine ⟨hl.nodup symbol, by simp, ?_⟩
  intro a ha b hb hab
  obtain rfl : b = em.created := by simpa using hb
  exact hl.ne_created symbol a ha hab

theorem Linked.push_owner (hl : Linked em registry) (symbol : Nat) :
    ∀ a ∈ registry symbol ++ [em.created], ∀ t, t ≠ symbol → a ∉ registry t := by
  intro a ha t ht hat
  rcases List.mem_append.mp ha with ha | ha
  · exact ht (hl.owner a t symbol hat ha)
  · obtain rfl : a = em.created := by simpa using ha
    exact hl.ne_created t _ hat rfl

/-- What the lists know of a registered handler: its root, what is behind it, and what `off` finds
in front of it. -/
theorem Linked.located (hl : Linked em registry) (symbol k : Nat) (pre post : List Nat)
    (hreg : registry symbol = pre ++ k :: post) :
    ∃ r x, em.events.lookup symbol = some r ∧ em.handlers k = some x ∧
      Chain em.next r.head (pre ++ k :: post) ∧ r.tail = (pre ++ k :: post).getLast? ∧
      x.next = post.head? ∧ em.seek k em.created r.head none = some (some pre.getLast?) := by
  obtain ⟨r, hr⟩ : ∃ r, em.events.lookup symbol = some r := by
    cases hr : em.events.lookup symbol with
    | none => simp [hl.empty_of_absent symbol hr] at hreg
    | some r => exact ⟨r, rfl⟩
  obtain ⟨x, hx⟩ := hl.allocated symbol k (by simp [hreg])
  have hc : Chain em.next r.head (pre ++ k :: post) := by
    have h := hl.chain symbol
    rwa [hreg, Emitter.headOf, hr, Option.bind_some] at h
  have hkpre : k ∉ pre := by
    have h := hl.nodup symbol
    rw [hreg, List.nodup_append] at h
    exact fun hm => h.2.2 k hm k (by simp) rfl
  refine ⟨r, x, hr, hx, hc, ?_, ?_, ?_⟩
  · rw [← hreg]
    exact hl.tail symbol r hr
  · simpa [Emitter.next, hx] using chain_next r.head pre post k hc
  · rw [← Option.or_none (o := pre.getLast?)]
    apply seek_found pre post em.created k em r.head none hc hkpre
    have h := hl.length_le symbol
    rw [hreg] at h
    simp at h
    omega

/-- The first handler of a symbol becomes head and tail. -/
theorem on_first (hl : Linked em registry) (symbol : Nat) (hnil : registry symbol = []) :
    ∃ em', em.on symbol = some em' ∧
      Linked em' (Function.update registry symbol (registry symbol ++ [em.created])) ∧
      em'.created = em.created + 1 ∧ em'.deleted = em.deleted ∧
      ∀ a, em'.guards a = if a = em.created then some 0 else em.guards a := by
  have hroot : ((em.events.lookup symbol).getD ⟨none, none⟩).tail = none := by
    cases hr : em.events.lookup symbol with
    | none => rfl
    | some r => simpa [hnil] using hl.tail symbol r hr
  let em' : Emitter := ⟨Function.update em.handlers em.created (some ⟨none, 0⟩), em.created + 1,
    em.events.insert symbol ⟨some em.created, some em.created⟩, em.deleted⟩
  refine ⟨em', ?_, ?_, rfl, rfl, ?_⟩
  · simp [Emitter.on, Emitter.pushBack, hroot, em']
  · apply hl.replace symbol
    · intro t ht
      exact AList.lookup_insert_ne ht
    · intro t _ a ha
      simp [Emitter.next, em', hl.ne_created t a ha]
    · simp [Emitter.headOf, em', hnil, Segment, Emitter.next]
    · intro r hr
      rw [AList.lookup_insert] at hr
      cases hr
      simp
    · exact hl.push_nodup symbol
    · exact hl.push_owner symbol
    · intro a h ha _
      by_cases he : a = em.created
      · left
        simp [em', he] at ha
        simp [← ha]
      · right
        exact ⟨by simp [hnil], by simpa [em', he] using ha⟩
    · intro a ha
      have hge : em.created + 1 ≤ a := ha
      simp only [em', Function.update_of_ne (show a ≠ em.created by omega)]
      exact hl.fresh a (by omega)
  · intro a
    by_cases he : a = em.created <;> simp [Emitter.guards, em', he]

/-- Behind the last handler of a symbol, that one gets a successor. -/
theorem on_behind (hl : Linked em registry) (symbol : Nat) (l : List Nat) (t : Nat)
    (hlt : registry symbol = l ++ [t]) :
    ∃ em', em.on symbol = some em' ∧
      Linked em' (Function.update registry symbol (registry symbol ++ [em.created])) ∧
      em'.created = em.created + 1 ∧ em'.deleted = em.deleted ∧
      ∀ a, em'.guards a = if a = em.created then some 0 else em.guards a := by
  obtain ⟨r, x, hr, hx, hc, htail, -, -⟩ := hl.located symbol t l [] hlt
  rw [List.getLast?_concat] at htail
  have htm : t ∈ registry symbol := by simp [hlt]
  have htn : t ≠ em.created := hl.ne_created symbol t htm
  let em' : Emitter := ⟨Function.update
      (Function.update em.handlers em.created (some ⟨none, 0⟩)) t (some ⟨some em.created, x.refCount⟩),
    em.created + 1, em.events.insert symbol ⟨r.head, some em.created⟩, em.deleted⟩
  have other (a : Nat) (ht : a ≠ t) (hc : a ≠ em.created) : em'.handlers a = em.handlers a := by
    simp [em', ht, hc]
  refine ⟨em', ?_, ?_, rfl, rfl, ?_⟩
  · simp only [Emitter.on, hr, Option.getD_some, Emitter.pushBack, htail]
    rw [setNext_spec _ t (some em.created) x (by simpa [htn] using hx)]
    rfl
  · apply hl.replace symbol
    · intro u hu
      exact AList.lookup_insert_ne hu
    · intro u hu a ha
      have hat : a ≠ t := fun he => hu (hl.owner a u symbol ha (he ▸ htm))
      simp [Emitter.next, other a hat (hl.ne_created u a ha)]
    · have hd : t ∉ l := by
        have h := hl.nodup symbol
        rw [hlt, List.nodup_append] at h
        exact fun hm => h.2.2 t hm t (by simp) rfl
      rw [hlt]
      simp only [Emitter.headOf, em', AList.lookup_insert, Option.bind_some]
      apply chain_push r.head l t em.created hc
      · intro b hb
        have hbt : b ≠ t := fun he => hd (he ▸ hb)
        simp [Emitter.next, hbt, hl.ne_created symbol b (by simp [hlt, hb])]
      · simp [Emitter.next]
      · simp [Emitter.next, Ne.symm htn]
    · intro r' hr'
      rw [AList.lookup_insert] at hr'
      cases hr'
      simp
    · exact hl.push_nodup symbol
    · exact hl.push_owner symbol
    · intro a h ha hout
      simp only [List.mem_append, List.mem_singleton, not_or] at hout
      right
      exact ⟨hout.1, by rw [← other a (fun he => hout.1 (he ▸ htm)) hout.2]; exact ha⟩
    · intro a ha
      have hge : em.created + 1 ≤ a := ha
      have hlt' := hl.lt_created symbol t htm
      rw [other a (by omega) (by omega)]
      exact hl.fresh a (by omega)
  · intro a
    by_cases hat : a = t
    · subst hat
      simp [Emitter.guards, em', htn, hx]
    · by_cases he : a = em.created
      · simp [Emitter.guards, em', he, Ne.symm htn]
      · simp [Emitter.guards, other a hat he, he]

theorem on_spec (hl : Linked em registry) (symbol : Nat) :
    ∃ em', em.on symbol = some em' ∧
      Linked em' (Function.update registry symbol (registry symbol ++ [em.created])) ∧
      em'.created = em.created + 1 ∧ em'.deleted = em.deleted ∧
      ∀ a, em'.guards a = if a = em.created then some 0 else em.guards a := by
  rcases List.eq_nil_or_concat (registry symbol) with hnil | ⟨l, t, hlt⟩
  · exact on_first hl symbol hnil
  · rw [List.concat_eq_append] at hlt
    exact on_behind hl symbol l t hlt

/-- The list of `symbol` lost its handler `k`, and its root is stored back. -/
theorem Linked.unlinked (hl : Linked em registry) (symbol k : Nat) (pre post : List Nat) (r : Root)
    (hreg : registry symbol = pre ++ k :: post) (hev : em'.events = em.events)
    (hcr : em'.created = em.created)
    (hother : ∀ a, a ∉ registry symbol → em'.handlers a = em.handlers a)
    (hloose : ∀ h, em'.handlers k = some h → h.next = none)
    (hchain : Chain em'.next r.head (pre ++ post)) (htail : r.tail = (pre ++ post).getLast?) :
    Linked { em' with
        events := if r.head.isNone then em'.events.erase symbol else em'.events.insert symbol r }
      (Function.update registry symbol ((registry symbol).erase k)) := by
  have hn := hl.nodup symbol
  have hk : k ∉ pre := by
    rw [hreg, List.nodup_append] at hn
    exact fun hm => hn.2.2 k hm k (by simp) rfl
  have herase : (registry symbol).erase k = pre ++ post := by
    rw [hreg, List.erase_append_right _ hk, List.erase_cons_head]
  have hhead := chain_head _ _ hchain
  rw [herase]
  apply hl.replace symbol
  · intro t ht
    rw [← hev]
    dsimp only
    split_ifs
    · exact AList.lookup_erase_ne ht
    · exact AList.lookup_insert_ne ht
  · intro t ht a ha
    have hout : a ∉ registry symbol := fun hm => ht (hl.owner a t symbol ha hm)
    simp only [Emitter.next, hother a hout]
  · by_cases hr : r.head = none
    · have hempty : pre ++ post = [] := List.head?_eq_none_iff.mp (hhead.symm.trans hr)
      simp [Emitter.headOf, hr, hempty]
    · have hsome : r.head.isNone = false := by simpa using Option.ne_none_iff_isSome.mp hr
      simp only [Emitter.headOf, hsome, Bool.false_eq_true, if_false, AList.lookup_insert,
        Option.bind_some]
      exact hchain
  · intro r' hr'
    by_cases hr : r.head = none
    · simp [hr] at hr'
    · simp only [Option.isNone_iff_eq_none, hr, if_false, AList.lookup_insert] at hr'
      cases hr'
      exact ⟨htail, fun hempty => hr (by rw [hhead, hempty]; rfl)⟩
  · rw [← herase]
    exact hn.erase k
  · intro a ha t ht hat
    have hm : a ∈ registry symbol := by
      rw [← herase] at ha
      exact List.mem_of_mem_erase ha
    exact ht (hl.owner a t symbol hat hm)
  · intro a h ha hout
    by_cases he : a = k
    · subst he
      exact .inl (hloose h ha)
    · have hout : a ∉ registry symbol := by
        rw [hreg]
        simp only [List.mem_append, List.mem_cons, not_or] at hout ⊢
        exact ⟨hout.1, he, hout.2⟩
      exact .inr ⟨hout, by rw [← hother a hout]; exact ha⟩
  · intro a ha
    have hge : em.created ≤ a := by rw [← hcr]; exact ha
    have hout : a ∉ registry symbol := fun hm => absurd (hl.lt_created symbol a hm) (by omega)
    exact (hother a hout).trans (hl.fresh a hge)

/-- Without a predecessor, the successor becomes the head. -/
theorem off_first (hl : Linked em registry) (symbol k : Nat) (post : List Nat)
    (hreg : registry symbol = k :: post) :
    ∃ em', em.off symbol k = some em' ∧
      Linked em' (Function.update registry symbol ((registry symbol).erase k)) ∧
      Removes em em' [k] := by
  obtain ⟨r, x, hr, hx, hc, htail, hnext, hseek⟩ := hl.located symbol k [] post hreg
  have hk : k ∈ registry symbol := by simp [hreg]
  have hn := hl.nodup symbol
  rw [hreg, List.nodup_cons] at hn
  obtain ⟨em', hd, hev, hhand, hrem⟩ := discard_spec em k x hx
  refine ⟨_, ?_, hl.unlinked symbol k [] post ⟨x.next, if x.next.isNone then none else r.tail⟩
    hreg hev hrem.created ?_ ?_ ?_ ?_, ⟨hrem.created, hrem.kept, hrem.gone, hrem.deleted⟩⟩
  · simp only [Emitter.off, hr, hseek, Option.bind_some, Emitter.eraseHandler, hx,
      List.getLast?_nil, Emitter.unlink, hd, Option.map_some]
  · intro a ha
    have hne : a ≠ k := fun he => ha (he ▸ hk)
    rw [hhand, Function.update_of_ne hne]
  · intro h hh
    rw [hhand, Function.update_self] at hh
    split_ifs at hh
    cases hh
    rfl
  · rw [hnext]
    apply chain_unlink_head r.head post k hc
    intro c hcp
    exact discard_next em em' k c x (fun he => hn.1 (he ▸ hcp)) hhand
  · cases post with
    | nil => simp [hnext]
    | cons b post =>
      rw [htail]
      simp [hnext]

/-- A predecessor is linked to the successor. -/
theorem off_behind (hl : Linked em registry) (symbol k p : Nat) (pre post : List Nat)
    (hreg : registry symbol = pre ++ [p] ++ k :: post) :
    ∃ em', em.off symbol k = some em' ∧
      Linked em' (Function.update registry symbol ((registry symbol).erase k)) ∧
      Removes em em' [k] := by
  obtain ⟨r, x, hr, hx, hc, htail, hnext, hseek⟩ := hl.located symbol k (pre ++ [p]) post hreg
  have hk : k ∈ registry symbol := by simp [hreg]
  have hn := hl.nodup symbol
  rw [hreg, List.nodup_append, List.nodup_cons] at hn
  have hkpre : k ∉ pre ++ [p] := fun hm => hn.2.2 k hm k (by simp) rfl
  have hpm : p ∈ registry symbol := by simp [hreg]
  have hpk : p ≠ k := fun he => hkpre (by simp [he])
  obtain ⟨y, hy⟩ := hl.allocated symbol p hpm
  rw [List.getLast?_concat] at hseek
  have hset := setNext_spec em p x.next y hy
  have hrem0 := setNext_removes em _ p x.next hset
  obtain ⟨em', hd, hev, hhand, hrem⟩ := discard_spec { em with
    handlers := Function.update em.handlers p (some ⟨x.next, y.refCount⟩) } k x
    (by simpa [Ne.symm hpk] using hx)
  have hrem := Removes.trans _ _ _ [] [k] hrem0 hrem (by simp)
  refine ⟨_, ?_, hl.unlinked symbol k (pre ++ [p]) post
    (if x.next.isNone then { r with tail := some p } else r) hreg hev hrem.created ?_ ?_ ?_ ?_,
    ⟨hrem.created, hrem.kept, hrem.gone, hrem.deleted⟩⟩
  · simp only [Emitter.off, hr, hseek, Option.bind_some, Emitter.eraseHandler, hx,
      Emitter.unlink, hset, hd, Option.map_some]
  · intro a ha
    have hak : a ≠ k := fun he => ha (he ▸ hk)
    have hap : a ≠ p := fun he => ha (he ▸ hpm)
    rw [hhand, Function.update_of_ne hak]
    exact Function.update_of_ne hap _ _
  · intro h hh
    rw [hhand, Function.update_self] at hh
    split_ifs at hh
    cases hh
    rfl
  · have hroot : (if x.next.isNone then { r with tail := some p } else r).head = r.head := by
      split_ifs <;> rfl
    have hppre : p ∉ pre := by
      have h := hn.1
      rw [List.nodup_append] at h
      exact fun hm => h.2.2 p hm p (by simp) rfl
    have other (c : Nat) (hck : c ≠ k) (hcp : c ≠ p) : em'.next c = em.next c := by
      simp [Emitter.next, hhand, hck, hcp]
    rw [hroot, List.append_assoc]
    rw [List.append_assoc] at hc
    apply chain_unlink r.head pre post k p hc
    · simp [Emitter.next, hhand, hpk, hnext]
    · intro c hcp
      exact other c (fun he => hkpre (by simp [← he, hcp])) (fun he => hppre (he ▸ hcp))
    · intro c hcp
      exact other c (fun he => hn.2.1.1 (he ▸ hcp))
        (fun he => hn.2.2 p (by simp) c (by simp [hcp]) he.symm)
  · cases post with
    | nil => simp [hnext]
    | cons b post =>
      rw [hnext]
      simp [htail]

theorem off_spec (hl : Linked em registry) (symbol k : Nat) (hk : k ∈ registry symbol) :
    ∃ em', em.off symbol k = some em' ∧
      Linked em' (Function.update registry symbol ((registry symbol).erase k)) ∧
      Removes em em' [k] := by
  obtain ⟨pre, post, hreg⟩ := List.append_of_mem hk
  rcases List.eq_nil_or_concat pre with rfl | ⟨pre, p, rfl⟩
  · exact off_first hl symbol k post hreg
  · rw [List.concat_eq_append] at hreg
    exact off_behind hl symbol k p pre post hreg

theorem off_absent (hl : Linked em registry) (symbol k : Nat) (hk : k ∉ registry symbol) :
    em.off symbol k = some em := by
  cases hr : em.events.lookup symbol with
  | none => simp [Emitter.off, hr]
  | some r =>
    have hc : Chain em.next r.head (registry symbol) := by
      simpa [Emitter.headOf, hr] using hl.chain symbol
    have hseek := seek_absent _ em.created k em r.head none hc hk (hl.length_le symbol)
    simp [Emitter.off, hr, hseek]

/-- `removeAllListeners` destroys the list of the symbol. -/
theorem removeAllListeners_spec (hl : Linked em registry) (symbol : Nat) :
    ∃ em', em.removeAllListeners symbol = some em' ∧
      Linked em' (Function.update registry symbol []) ∧ Removes em em' (registry symbol) := by
  cases hr : em.events.lookup symbol with
  | none =>
    have hempty := hl.empty_of_absent symbol hr
    refine ⟨em, by simp [Emitter.removeAllListeners, hr], ?_, ?_⟩
    · rw [← hempty, Function.update_eq_self]
      exact hl
    · rw [hempty]
      exact Removes.refl em
  | some r =>
    have hc : Chain em.next r.head (registry symbol) := by
      simpa [Emitter.headOf, hr] using hl.chain symbol
    obtain ⟨em1, hd, hev, hrem, hout, hin⟩ := destroyRoot_spec (registry symbol) em.created em
      r.head hc (hl.nodup symbol) (hl.length_le symbol)
    refine ⟨{ em1 with events := em.events.erase symbol }, ?_, ?_,
      ⟨hrem.created, hrem.kept, hrem.gone, hrem.deleted⟩⟩
    · simp [Emitter.removeAllListeners, hr, hd, hev]
    · apply hl.replace symbol
      · intro t ht
        exact AList.lookup_erase_ne ht
      · intro t ht a ha
        have hm : a ∉ registry symbol := fun hm => ht (hl.owner a t symbol ha hm)
        simp only [Emitter.next, hout a hm]
      · simp [Emitter.headOf]
      · intro r' hr'
        simp at hr'
      · simp
      · simp
      · intro a h ha _
        by_cases hm : a ∈ registry symbol
        · exact .inl (hin a hm h ha)
        · exact .inr ⟨hm, by rw [← hout a hm]; exact ha⟩
      · intro a ha
        have hge : em.created ≤ a := by rw [← hrem.created]; exact ha
        have hm : a ∉ registry symbol := fun hm => absurd (hl.lt_created symbol a hm) (by omega)
        exact (hout a hm).trans (hl.fresh a hge)

/-- The destructors of the roots `symbols` discard what was registered for them. -/
theorem foldlM_removeAllListeners_spec (symbols : List Nat) (em : Emitter)
    (registry : Nat → List Nat) (hl : Linked em registry) (hn : symbols.Nodup) :
    ∃ em', symbols.foldlM Emitter.removeAllListeners em = some em' ∧
      Linked em' (fun t => if t ∈ symbols then [] else registry t) ∧
      Removes em em' (symbols.flatMap registry) := by
  induction symbols generalizing em registry with
  | nil => exact ⟨em, rfl, by simpa using hl, Removes.refl em⟩
  | cons symbol symbols ih =>
    obtain ⟨hs, hn⟩ := List.nodup_cons.mp hn
    obtain ⟨em1, h1, hl1, hrem1⟩ := removeAllListeners_spec hl symbol
    obtain ⟨em2, h2, hl2, hrem2⟩ := ih em1 _ hl1 hn
    have hrest : symbols.flatMap (Function.update registry symbol []) =
        symbols.flatMap registry := by
      apply List.flatMap_congr
      intro t ht
      have hne : t ≠ symbol := fun he => hs (he ▸ ht)
      exact Function.update_of_ne hne _ _
    rw [hrest] at hrem2
    refine ⟨em2, ?_, ?_, ?_⟩
    · rw [List.foldlM_cons, h1]
      exact h2
    · convert hl2 using 2 with t
      by_cases ht : t = symbol
      · simp [ht]
      · simp [ht]
    · rw [List.flatMap_cons]
      apply Removes.trans em em1 em2 _ _ hrem1 hrem2
      intro a ha hb
      obtain ⟨t, ht, hat⟩ := List.mem_flatMap.mp hb
      exact hs (hl.owner a t symbol hat ha ▸ ht)

/-- `removeAllListeners()` leaves no handler registered. -/
theorem clear_spec (hl : Linked em registry) :
    ∃ em', em.clear = some em' ∧ Linked em' (fun _ => []) ∧
      Removes em em' (em.events.keys.flatMap registry) ∧
      ∀ t a, a ∈ registry t → a ∈ em.events.keys.flatMap registry := by
  obtain ⟨em', h, hl', hrem⟩ := foldlM_removeAllListeners_spec em.events.keys em registry hl
    (AList.keys_nodup _)
  have hkey (t : Nat) (ht : t ∉ em.events.keys) : registry t = [] :=
    hl.empty_of_absent t (AList.lookup_eq_none.mpr ht)
  refine ⟨em', h, ?_, hrem, ?_⟩
  · convert hl' using 2 with t
    split_ifs with ht
    · rfl
    · exact (hkey t ht).symm
  · intro t a ha
    refine List.mem_flatMap.mpr ⟨t, ?_, ha⟩
    by_contra ht
    rw [hkey t ht] at ha
    cases ha

end

end Libnodecc.Events

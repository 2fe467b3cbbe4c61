import Libnodecc.Util.DecodeStages
import Libnodecc.Util.ResultBuffer

namespace Libnodecc.Util.Base64

open Buffer Decoder

/-- The writes of the last `switch` are inside of the capacity, and the address three bytes before
the end does not wrap. -/
def InRoom (buffer : View) : Prop :=
  3 ≤ buffer.addr + buffer.size ∧
    (lastStage buffer.bytes).bytes.length +
      (registerBytes (lastStage buffer.bytes).r (lastStage buffer.bytes).ri).length ≤
    max 16 (3 * (buffer.size / 4))

/-- The passes fail, or the result shows what they have written. -/
theorem decodeInto_owned (malloc : Malloc) (buffer : View) (room : Bytes) (n : Nat)
    (hn : n = buffer.size / 4 * 3) (hroom : room.length = max 16 n) :
    Refuses malloc ∧ decodeInto malloc buffer (owned room n) ⟨0, 0⟩ = .error .badAlloc ∨
      InRoom buffer ∧ (∃ t, decodeInto malloc buffer (owned room n) ⟨0, 0⟩ = .ok t ∧
        t.shown 0 = some (lastStage buffer.bytes).bytes) ∨
      ¬ InRoom buffer ∧ decodeInto malloc buffer (owned room n) ⟨0, 0⟩ = .error .undefined := by
  have hlt := buffer.length_lt
  have hlen : buffer.bytes.length = buffer.size := rfl
  have hinto : decodeInto malloc buffer (owned room n) ⟨0, 0⟩ =
      (defined (decodeTo buffer room) >>= fun d =>
        defined ((owned room n).heap.write ⟨0, 0⟩ d.result) >>= fun heap =>
          ({ owned room n with heap := heap } : State).setSize malloc 0 d.out) := by
    rw [decodeInto, owned_capacity, call_bind, owned_read hroom, call_defined]
  rw [hinto]
  by_cases hend : 3 ≤ buffer.addr + buffer.size
  · rcases decodeTo_eq buffer room hend (by omega) with
      ⟨hnone, hover⟩ | ⟨d, hd, hout, hresult, htake, hfits⟩
    · rw [hnone, call_undefined]
      refine Or.inr (Or.inr ⟨fun hin => ?_, rfl⟩)
      have hin' := hin.2
      omega
    · have hbound := (stage_bounds buffer.bytes (buffer.size / 4)).2.2
      have hbytes : d.out ≤ n := by
        rw [hout, lastStage, Stage.take_bytes, hlen]
        omega
      have hwrite := owned_write hroom hresult
      rw [hd, call_defined, hwrite, call_defined, ← htake]
      rcases owned_setSize (hresult.trans hroom) (by omega) hbytes with hbad | ⟨t, ht, hshown⟩
      · exact Or.inl hbad
      · exact Or.inr (Or.inl ⟨⟨hend, by omega⟩, t, ht, hshown⟩)
  · have hnone := decodeTo_wraps buffer room (by omega)
    rw [hnone, call_undefined]
    exact Or.inr (Or.inr ⟨fun hin => hend hin.1, rfl⟩)

theorem shown_read {s : State} {bytes : Bytes} (h : s.shown 0 = some bytes) :
    (do
      let result ← s.handle 0
      defined (s.heap.read result.ref.data result.ref.size) : Call Bytes) = .ok bytes := by
  obtain ⟨result, hresult, hread⟩ := Option.bind_eq_some_iff.mp h
  rw [State.handle, hresult]
  change defined (s.heap.read result.ref.data result.ref.size) = _
  rw [hread]
  rfl

/-- `decode` returns what was written for the groups, unless it reads or writes out of bounds. -/
theorem decode_eq (malloc : Malloc) (buffer : View) :
    Refuses malloc ∧ decode malloc buffer = .error .badAlloc ∨
      InRoom buffer ∧ decode malloc buffer = .ok (lastStage buffer.bytes).bytes ∨
      ¬ InRoom buffer ∧ decode malloc buffer = .error .undefined := by
  have hlt := buffer.length_lt
  have hlen : buffer.bytes.length = buffer.size := rfl
  have hsize : sizeT (buffer.size / 4 * 3) = buffer.size / 4 * 3 := by
    simp only [View.size, sizeT]
    omega
  obtain ⟨n, hn⟩ : ∃ n, n = buffer.size / 4 * 3 := ⟨_, rfl⟩
  rw [decode, hsize, ← hn]
  cases hserve : malloc.serve 0 (max 16 n) with
  | none =>
    rw [setSize_refused malloc n hserve, call_stop]
    exact Or.inl ⟨⟨0, max 16 n, by omega, hserve⟩, rfl⟩
  | some room =>
    obtain ⟨hroom, -⟩ := malloc.served _ _ _ hserve
    have howned : (State.init.push .null (some 0)).setSize malloc 0 n = .ok (owned room n) :=
      setSize_fresh malloc n room hserve
    have hhandle : (owned room n).handle 0 = .ok ⟨⟨some ⟨0, 0⟩, n, some 0⟩, some (max 16 n)⟩ := rfl
    rw [howned, call_bind, hhandle, call_bind]
    dsimp only
    rcases decodeInto_owned malloc buffer room n hn hroom with
      ⟨hrefuses, hbad⟩ | ⟨hin, t, ht, hshown⟩ | ⟨hin, hund⟩
    · rw [hbad, call_stop]
      exact Or.inl ⟨hrefuses, rfl⟩
    · rw [ht, call_bind, shown_read hshown]
      exact Or.inr (Or.inl ⟨hin, rfl⟩)
    · rw [hund, call_stop]
      exact Or.inr (Or.inr ⟨hin, rfl⟩)

end Libnodecc.Util.Base64

import Bourse.Proofs.Replies

/-!
# `Bourse.Proofs.Buffering` — what a framer holds is bounded

A client may send what it likes; what a framer keeps of it is bounded all the same. Whenever it has nothing to
give it is drained, and so holds no more than one frame may have (`drained_of_next`), and what it is fed after
that is all that can come on top (`Metered.Bounded`). It also gets there: a call that gives a frame or an error
takes a terminator out of the buffer, or else it has emptied the buffer (`countP_next`), so after as many calls
as there are terminators, and one more, there is nothing to give (`exists_next_eq_none`).

`memory_bounded` puts this together for a framer that was used in any way since it was new.
-/

namespace Bourse

/-- A terminator is gone with the bytes up to it. -/
theorem Frame.countP_of_tail {bytes rest : List UInt8} {b : UInt8} (h : tail bytes = b :: rest) :
    bytes.countP endsFrame = rest.countP endsFrame + 1 := by
  have hhead : (head bytes).countP endsFrame = 0 := by
    refine List.countP_eq_zero.mpr fun c hc => ?_
    rw [endsFrame_of_mem_head hc]
    nofun
  rw [← head_append_tail bytes, List.countP_append, hhead, h,
    List.countP_cons_of_pos (endsFrame_of_tail h), Nat.zero_add]

namespace Framer

/-! ## What is given -/

/-- A frame that is given is one that a framer may be sent: it is not blank, no byte of it ends a frame, and
    it is no longer than the limit. -/
theorem plain_of_next {framer : Framer} {frame : List UInt8} (h : framer.next.1 = .ok (some frame)) :
    Frame.Plain framer.limit frame := by
  fun_induction next framer with
  | case1 => cases h
  | case2 => cases h
  | case3 => cases h
  | case4 framer b left htail hskip ih => exact ih h
  | case5 => cases h
  | case6 framer b left htail hskip hlong hblank ih => exact ih h
  | case7 framer b left htail hskip hlong hblank =>
    cases h
    exact ⟨Bool.eq_false_iff.mpr hblank, fun _ => Frame.endsFrame_of_mem_head, Nat.not_lt.mp hlong⟩

/-! ## What is held -/

theorem length_next_le (framer : Framer) : framer.next.2.buffer.length ≤ framer.buffer.length :=
  framer.buffer_next_suffix.length_le

/-- No more is held than a frame may have and what was fed since there was last nothing to give. -/
structure Metered.Bounded (metered : Metered) (limit : Nat) : Prop where
  limit_eq : metered.framer.limit = limit
  length_le : metered.framer.buffer.length ≤ limit + metered.fed

theorem Metered.Bounded.use {metered : Metered} {limit : Nat} (h : metered.Bounded limit) (use : Use) :
    (metered.use use).Bounded limit := by
  obtain ⟨framer, fed⟩ := metered
  obtain ⟨hlimit, hlength⟩ := h
  dsimp only at hlimit hlength
  cases use with
  | call call =>
    cases call with
    | feed bytes =>
      refine ⟨hlimit, ?_⟩
      show (framer.buffer ++ bytes).length ≤ limit + (fed + bytes.length)
      rw [List.length_append]
      omega
    | next =>
      have hleft : framer.next.2.limit = limit := (limit_next framer).trans hlimit
      have hless := framer.length_next_le
      unfold Metered.use
      dsimp only
      split
      case h_1 left hnext =>
        have hdrained : framer.next.2.Drained := drained_of_next (by rw [hnext])
        rw [hnext] at hdrained hleft
        exact ⟨hleft, hleft ▸ hdrained.length_le⟩
      case h_2 given left _ hnext =>
        rw [hnext] at hleft hless
        exact ⟨hleft, Nat.le_trans hless hlength⟩
  | finish => exact ⟨hlimit, Nat.zero_le _⟩

theorem bounded_used (limit : Nat) (uses : List Use) : (used limit uses).Bounded limit := by
  have hfold : ∀ metered : Metered, metered.Bounded limit →
      (uses.foldl Metered.use metered).Bounded limit := by
    induction uses with
    | nil => exact fun _ h => h
    | cons use rest ih => exact fun metered h => ih (metered.use use) (h.use use)
  exact hfold { framer := { limit } } ⟨rfl, Nat.zero_le _⟩

/-! ## How long it takes -/

theorem next_of_buffer_eq_nil {framer : Framer} (h : framer.buffer = []) : framer.next.1 = .ok none := by
  obtain ⟨limit, buffer, skipping⟩ := framer
  obtain rfl : buffer = [] := h
  unfold next
  cases skipping <;> rfl

/-- A call that gives a frame or an error takes a terminator out of the buffer or leaves nothing in it. -/
theorem countP_next {framer : Framer} (h : framer.next.1 ≠ .ok none) :
    framer.next.2.buffer.countP Frame.endsFrame < framer.buffer.countP Frame.endsFrame ∨
      framer.next.2.buffer = [] := by
  fun_induction next framer with
  | case1 => exact absurd rfl h
  | case2 => exact .inr rfl
  | case3 => exact absurd rfl h
  | case4 framer b left htail hskip ih =>
    have hcount := Frame.countP_of_tail htail
    exact (ih h).imp_left fun hless => by
      dsimp only at hless
      omega
  | case5 framer b left htail =>
    rw [Frame.countP_of_tail htail]
    exact .inl (Nat.lt_succ_self _)
  | case6 framer b left htail hskip hlong hblank ih =>
    have hcount := Frame.countP_of_tail htail
    exact (ih h).imp_left fun hless => by
      dsimp only at hless
      omega
  | case7 framer b left htail =>
    rw [Frame.countP_of_tail htail]
    exact .inl (Nat.lt_succ_self _)

/-- **After as many calls as there are terminators, and one more, there is nothing to give.** -/
theorem exists_next_eq_none (framer : Framer) :
    ∃ times ≤ framer.buffer.countP Frame.endsFrame + 1, (framer.advance times).next.1 = .ok none := by
  induction hcount : framer.buffer.countP Frame.endsFrame using Nat.strongRecOn generalizing framer with
  | ind count ih =>
    by_cases hnext : framer.next.1 = .ok none
    · exact ⟨0, Nat.zero_le _, hnext⟩
    · rcases countP_next hnext with hless | hempty
      · obtain ⟨times, htimes, hnone⟩ := ih _ (hcount ▸ hless) framer.next.2 rfl
        exact ⟨times + 1, by omega, hnone⟩
      · exact ⟨1, Nat.le_add_left 1 count, next_of_buffer_eq_nil hempty⟩

/-- **What a framer holds is bounded**, whatever has been done with it since it was new. It holds no more bytes
    than a frame may have and it was fed since `next` last gave nothing. When `next` gives nothing there is no
    terminator in the buffer, no more bytes than a frame may have, and none at all of a frame that was
    reported as too long. When it gives a frame, that frame is not blank, no longer than the limit, and has no
    terminator in it. And if `next` is called over and over, it gives nothing after at most one call for each
    terminator in the buffer and one more. -/
theorem memory_bounded (limit : Nat) (uses : List Use) :
    let metered := used limit uses
    let framer := metered.framer
    framer.buffer.length ≤ limit + metered.fed ∧
    (framer.next.1 = .ok none →
      (∀ b ∈ framer.next.2.buffer, Frame.endsFrame b = false) ∧
      framer.next.2.buffer.length ≤ limit ∧
      (framer.next.2.skipping = true → framer.next.2.buffer = [])) ∧
    (∀ frame, framer.next.1 = .ok (some frame) →
      Frame.isBlank frame = false ∧ frame.length ≤ limit ∧ ∀ b ∈ frame, Frame.endsFrame b = false) ∧
    ∃ times ≤ framer.buffer.countP Frame.endsFrame + 1, (framer.advance times).next.1 = .ok none := by
  intro metered framer
  obtain ⟨hlimit, hlength⟩ := bounded_used limit uses
  refine ⟨hlength, ?_, ?_, framer.exists_next_eq_none⟩
  · intro hnone
    have hdrained := drained_of_next hnone
    have hleft : framer.next.2.limit = limit := (limit_next framer).trans hlimit
    exact ⟨hdrained.open_frame, hleft ▸ hdrained.length_le, hdrained.eq_nil⟩
  · intro frame hframe
    have hplain := plain_of_next hframe
    exact ⟨hplain.not_blank, hlimit ▸ hplain.length_le, hplain.open_frame⟩

end Framer

end Bourse

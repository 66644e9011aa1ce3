import Bourse.Json.Grammar

/-!
# `Bourse.Proofs.Nesting` — pieces are put together to the value whose pieces they are

The reader's machine against the pieces of a value, in both directions. On the pieces of a value it ends
where a value has ended (`foldlM_pieces`). The other way round, what has been read is known from the state
of the machine (`Reads`), and each piece keeps that up.
-/

namespace Bourse.Json

namespace Reader

/-! ## From the pieces of a value -/

mutual

/-- **The pieces of a value are read as that value**, wherever a value may come, if that does not open too
many containers. -/
theorem foldlM_pieces (v : Json) (stack : List Open) {expected : Expected}
    (hexpected : expected = .value ∨ expected = .firstItem) (hdepth : stack.length + v.depth ≤ maxDepth) :
    v.pieces.foldlM step { stack, expected } = finish v stack := by
  match v with
  | .null | .bool _ | .int _ | .decimal _ | .string _ =>
    rcases hexpected with rfl | rfl <;> simp [pieces, step, begin?]
  | .array [] =>
    have hroom : stack.length < maxDepth := hdepth
    rcases hexpected with rfl | rfl <;> simp [pieces, step, begin?, close?, hroom]
  | .array (item :: items) =>
    -- the bracket, the first item, the others, and the end
    simp only [depth, depthOfItems] at hdepth
    have hroom : stack.length < maxDepth := by omega
    have hitem := foldlM_pieces item (.array [] :: stack) (.inr (Eq.refl Expected.firstItem))
      (by simp only [List.length_cons]; omega)
    have hmore := foldlM_morePieces items stack [item] (by omega)
    have hclose : close? (.array (items.reverse ++ [item]) :: stack) .closeArray =
        finish (.array (item :: items)) stack := by simp [close?]
    rcases hexpected with rfl | rfl <;>
      simp [pieces, step, begin?, hroom, hitem, finish, hmore, hclose]
  | .object [] =>
    have hroom : stack.length < maxDepth := hdepth
    rcases hexpected with rfl | rfl <;> simp [pieces, step, begin?, close?, hroom]
  | .object ((key, held) :: members) =>
    -- likewise, with a key in front of each value
    simp only [depth, depthOfMembers] at hdepth
    have hroom : stack.length < maxDepth := by omega
    have hheld := foldlM_pieces held (.member [] key :: stack) (.inl (Eq.refl Expected.value))
      (by simp only [List.length_cons]; omega)
    have hmore := foldlM_moreMemberPieces members stack [(key, held)] (by omega)
    have hclose : close? (.object (members.reverse ++ [(key, held)]) :: stack) .closeObject =
        finish (.object ((key, held) :: members)) stack := by simp [close?]
    rcases hexpected with rfl | rfl <;>
      simp [pieces, step, begin?, key?, hroom, hheld, finish, hmore, hclose]

theorem foldlM_morePieces (items : List Json) (stack : List Open) (before : List Json)
    (hdepth : stack.length + (depthOfItems items + 1) ≤ maxDepth) :
    (morePieces items).foldlM step { stack := .array before :: stack, expected := .separator } =
      some { stack := .array (items.reverse ++ before) :: stack, expected := .separator } := by
  match items with
  | [] => rfl
  | item :: items =>
    simp only [depthOfItems] at hdepth
    have hitem := foldlM_pieces item (.array before :: stack) (.inl (Eq.refl Expected.value))
      (by simp only [List.length_cons]; omega)
    have hmore := foldlM_morePieces items stack (item :: before) (by omega)
    simp [morePieces, step, comma?, hitem, finish, hmore]

theorem foldlM_moreMemberPieces (members : List (String × Json)) (stack : List Open)
    (before : List (String × Json)) (hdepth : stack.length + (depthOfMembers members + 1) ≤ maxDepth) :
    (moreMemberPieces members).foldlM step { stack := .object before :: stack, expected := .separator } =
      some { stack := .object (members.reverse ++ before) :: stack, expected := .separator } := by
  match members with
  | [] => rfl
  | (key, held) :: members =>
    simp only [depthOfMembers] at hdepth
    have hheld := foldlM_pieces held (.member before key :: stack) (.inl (Eq.refl Expected.value))
      (by simp only [List.length_cons]; omega)
    have hmore := foldlM_moreMemberPieces members stack ((key, held) :: before) (by omega)
    simp [moreMemberPieces, step, comma?, key?, hheld, finish, hmore]

end

/-! ## To the pieces of a value -/

/-- The pieces of a container that is still open, up to where its next item or key begins, or the value
of a key that has been read. -/
def lead : Open → List Token
  | .array items => .openArray :: items.reverse.flatMap fun v => v.pieces ++ [.comma]
  | .object members => .openObject :: members.reverse.flatMap memberLead
  | .member members key =>
    .openObject :: members.reverse.flatMap memberLead ++ [.value (.string key), .colon]
where
  /-- The pieces of a member and the comma behind it. -/
  memberLead (m : String × Json) : List Token :=
    .value (.string m.1) :: .colon :: (m.2.pieces ++ [.comma])

/-- The pieces of all containers that are still open. -/
def leads (stack : List Open) : List Token := stack.reverse.flatMap lead

@[simp] theorem leads_cons (o : Open) (stack : List Open) : leads (o :: stack) = leads stack ++ lead o := by
  simp [leads]

/-- What an open container holds is nested at most `n` deep. -/
def Within (n : Nat) : Open → Prop
  | .array items => ∀ v ∈ items, v.depth ≤ n
  | .object members => ∀ m ∈ members, m.2.depth ≤ n
  | .member members _ => ∀ m ∈ members, m.2.depth ≤ n

/-- Each open container, and what it holds, is within the bound on nesting. -/
def Bounded : List Open → Prop
  | [] => True
  | o :: rest => rest.length < maxDepth ∧ Within (maxDepth - (rest.length + 1)) o ∧ Bounded rest

/-- **The pieces that lead to a state.** A comma or a colon that is due belongs to what is still open. -/
inductive Reads : State → List Token → Prop
  | value {stack : List Open} (h : Bounded stack) : Reads { stack, expected := .value } (leads stack)
  | firstItem {rest : List Open} (h : Bounded (.array [] :: rest)) :
      Reads { stack := .array [] :: rest, expected := .firstItem } (leads (.array [] :: rest))
  | firstKey {rest : List Open} (h : Bounded (.object [] :: rest)) :
      Reads { stack := .object [] :: rest, expected := .firstKey } (leads (.object [] :: rest))
  | key {stack : List Open} (h : Bounded stack) : Reads { stack, expected := .key } (leads stack)
  | colon {stack : List Open} {ts : List Token} (h : Bounded stack) (hts : ts ++ [.colon] = leads stack) :
      Reads { stack, expected := .colon } ts
  | separator {stack : List Open} {ts : List Token} (h : Bounded stack)
      (hts : ts ++ [.comma] = leads stack) : Reads { stack, expected := .separator } ts
  | nothing {v : Json} (h : v.depth ≤ maxDepth) : Reads { expected := .nothing v } v.pieces

/-- A value that has ended belongs to what is read. -/
theorem reads_finish {v : Json} {stack : List Open} {state : State} (h : finish v stack = some state)
    (hstack : Bounded stack) (hdepth : stack.length + v.depth ≤ maxDepth) :
    Reads state (leads stack ++ v.pieces) := by
  unfold finish at h
  split at h
  case h_1 =>
    cases h
    exact .nothing (by simpa using hdepth)
  case h_2 items rest =>
    cases h
    obtain ⟨hroom, hwithin, hrest⟩ := hstack
    refine .separator ⟨hroom, ?_, hrest⟩ (by simp [lead])
    rintro w (_ | ⟨_, hw⟩)
    · simp only [List.length_cons] at hdepth
      omega
    · exact hwithin w hw
  case h_3 members key rest =>
    cases h
    obtain ⟨hroom, hwithin, hrest⟩ := hstack
    refine .separator ⟨hroom, ?_, hrest⟩ (by simp [lead, lead.memberLead])
    rintro w (_ | ⟨_, hw⟩)
    · simp only [List.length_cons] at hdepth
      simp only
      omega
    · exact hwithin w hw
  case h_4 => cases h

/-- A value that is a piece by itself is no container. -/
def Single : Token → Prop
  | .value v => v.depth = 0
  | _ => True

theorem pieces_of_depth {v : Json} (h : v.depth = 0) : v.pieces = [.value v] := by
  cases v with
  | array items => cases h
  | object members => cases h
  | _ => rfl

theorem reads_begin? {stack : List Open} {t : Token} {state : State} (h : begin? stack t = some state)
    (ht : Single t) (hstack : Bounded stack) : Reads state (leads stack ++ [t]) := by
  unfold begin? at h
  split at h
  case h_1 v =>
    have hdepth : v.depth = 0 := ht
    rw [← pieces_of_depth hdepth]
    refine reads_finish h hstack ?_
    cases stack with
    | nil => simp [hdepth]
    | cons o rest =>
      have := hstack.1
      simp only [List.length_cons]
      omega
  case h_2 =>
    obtain ⟨hroom, heq⟩ := Option.ite_none_right_eq_some.mp h
    cases heq
    simpa [lead] using Reads.firstItem ⟨hroom, nofun, hstack⟩
  case h_3 =>
    obtain ⟨hroom, heq⟩ := Option.ite_none_right_eq_some.mp h
    cases heq
    simpa [lead] using Reads.firstKey ⟨hroom, nofun, hstack⟩
  case h_4 => cases h

theorem reads_key? {stack : List Open} {t : Token} {state : State} (h : key? stack t = some state)
    (hstack : Bounded stack) : Reads state (leads stack ++ [t]) := by
  unfold key? at h
  split at h
  case h_1 =>
    cases h
    exact .colon hstack (by simp [lead])
  case h_2 => cases h

/-- The items after the first, with a comma in front of each or behind each. -/
theorem morePieces_comma (items : List Json) :
    morePieces items ++ [.comma] = .comma :: items.flatMap fun v => v.pieces ++ [.comma] := by
  induction items with
  | nil => rfl
  | cons v rest ih => simp [morePieces, ih]

theorem moreMemberPieces_comma (members : List (String × Json)) :
    moreMemberPieces members ++ [.comma] = .comma :: members.flatMap lead.memberLead := by
  induction members with
  | nil => rfl
  | cons m rest ih => simp [moreMemberPieces, lead.memberLead, ih]

/-- What is read of an array whose last item has ended needs only the end of the array. -/
theorem pieces_of_lead_array {items : List Json} {before ts : List Token}
    (h : ts ++ [.comma] = before ++ lead (.array items)) :
    ts ++ [.closeArray] = before ++ (Json.array items.reverse).pieces := by
  unfold lead at h
  cases hitems : items.reverse with
  | nil =>
    -- the bracket itself would be the comma
    simp [hitems] at h
  | cons v rest =>
    have hcomma : ts ++ [.comma] = (before ++ .openArray :: (v.pieces ++ morePieces rest)) ++ [.comma] := by
      simpa [hitems, morePieces_comma] using h
    rw [List.append_cancel_right hcomma]
    simp [pieces]

theorem pieces_of_lead_object {members : List (String × Json)} {before ts : List Token}
    (h : ts ++ [.comma] = before ++ lead (.object members)) :
    ts ++ [.closeObject] = before ++ (Json.object members.reverse).pieces := by
  unfold lead at h
  cases hmembers : members.reverse with
  | nil => simp [hmembers] at h
  | cons m rest =>
    have hcomma : ts ++ [.comma] =
        (before ++ .openObject :: .value (.string m.1) :: .colon ::
          (m.2.pieces ++ moreMemberPieces rest)) ++ [.comma] := by
      simpa [hmembers, moreMemberPieces_comma, lead.memberLead] using h
    rw [List.append_cancel_right hcomma]
    simp [pieces]

theorem depthOfItems_le {items : List Json} {n : Nat} (h : ∀ v ∈ items, v.depth ≤ n) :
    depthOfItems items ≤ n := by
  induction items with
  | nil => exact Nat.zero_le n
  | cons v rest ih =>
    exact Nat.max_le.mpr ⟨h v List.mem_cons_self, ih fun w hw => h w (List.mem_cons_of_mem v hw)⟩

theorem depthOfMembers_le {members : List (String × Json)} {n : Nat} (h : ∀ m ∈ members, m.2.depth ≤ n) :
    depthOfMembers members ≤ n := by
  induction members with
  | nil => exact Nat.zero_le n
  | cons m rest ih =>
    exact Nat.max_le.mpr ⟨h m List.mem_cons_self, ih fun w hw => h w (List.mem_cons_of_mem m hw)⟩

/-- The end of a container whose last item or member has ended. -/
theorem reads_close? {stack : List Open} {t : Token} {state : State} {ts : List Token}
    (h : close? stack t = some state) (hstack : Bounded stack) (hts : ts ++ [.comma] = leads stack) :
    Reads state (ts ++ [t]) := by
  unfold close? at h
  split at h
  case h_1 items rest =>
    obtain ⟨hroom, hwithin, hrest⟩ := hstack
    rw [pieces_of_lead_array (by simpa using hts)]
    have hdepth : depthOfItems items.reverse ≤ maxDepth - (rest.length + 1) :=
      depthOfItems_le fun v hv => hwithin v (List.mem_reverse.mp hv)
    refine reads_finish h hrest ?_
    simp only [depth]
    omega
  case h_2 members rest =>
    obtain ⟨hroom, hwithin, hrest⟩ := hstack
    rw [pieces_of_lead_object (by simpa using hts)]
    have hdepth : depthOfMembers members.reverse ≤ maxDepth - (rest.length + 1) :=
      depthOfMembers_le fun m hm => hwithin m (List.mem_reverse.mp hm)
    refine reads_finish h hrest ?_
    simp only [depth]
    omega
  case h_3 => cases h

/-- The end of a container without items or members. -/
theorem reads_close?_empty {o : Open} {rest : List Open} {t : Token} {state : State}
    (h : close? (o :: rest) t = some state) (ho : o = .array [] ∨ o = .object [])
    (hstack : Bounded (o :: rest)) : Reads state (leads (o :: rest) ++ [t]) := by
  obtain ⟨hroom, -, hrest⟩ := hstack
  unfold close? at h
  split at h
  case h_1 items rest heq =>
    cases heq
    obtain rfl : items = [] := by simpa using ho
    simpa [lead, pieces] using reads_finish h hrest hroom
  case h_2 members rest heq =>
    cases heq
    obtain rfl : members = [] := by simpa using ho
    simpa [lead, pieces] using reads_finish h hrest hroom
  case h_3 => cases h

theorem reads_comma? {stack : List Open} {state : State} {ts : List Token} (h : comma? stack = some state)
    (hstack : Bounded stack) (hts : ts ++ [.comma] = leads stack) : Reads state (ts ++ [.comma]) := by
  rw [hts]
  unfold comma? at h
  split at h
  case h_1 =>
    cases h
    exact .value hstack
  case h_2 =>
    cases h
    exact .key hstack
  case h_3 => cases h

/-- **One more piece is read.** -/
theorem Reads.step {state next : State} {ts : List Token} {t : Token} (h : Reads state ts)
    (hnext : Reader.step state t = some next) (ht : Single t) : Reads next (ts ++ [t]) := by
  -- by what may come next; of the other pieces `step` takes none
  unfold Reader.step at hnext
  cases h with
  | value h => exact reads_begin? hnext ht h
  | firstItem h =>
    cases t with
    | closeArray => exact reads_close?_empty hnext (.inl rfl) h
    | _ => exact reads_begin? hnext ht h
  | firstKey h =>
    cases t with
    | closeObject => exact reads_close?_empty hnext (.inr rfl) h
    | _ => exact reads_key? hnext h
  | key h => exact reads_key? hnext h
  | colon h hts =>
    cases t with
    | colon =>
      cases hnext
      rw [hts]
      exact .value h
    | _ => cases hnext
  | separator h hts =>
    cases t with
    | comma => exact reads_comma? hnext h hts
    | _ => exact reads_close? hnext h hts
  | nothing => cases hnext

/-- **A whole row of pieces is read.** -/
theorem Reads.run {ts : List Token} {state last : State} {before : List Token} (h : Reads state before)
    (hlast : ts.foldlM Reader.step state = some last) (hts : ∀ t ∈ ts, Single t) :
    Reads last (before ++ ts) := by
  induction ts generalizing state before with
  | nil =>
    cases hlast
    simpa using h
  | cons t rest ih =>
    obtain ⟨next, hnext, hrest⟩ := Option.bind_eq_some_iff.mp hlast
    have := ih (h.step hnext (hts t List.mem_cons_self)) hrest
      fun t ht => hts t (List.mem_cons_of_mem _ ht)
    simpa using this

/-- **A row of pieces is put together to a value exactly if it is the row of pieces of that value** and no
more containers are nested in it than may be open at once. -/
theorem value?_eq_some_iff {ts : List Token} (hts : ∀ t ∈ ts, Single t) (v : Json) :
    value? ts = some v ↔ ts = v.pieces ∧ v.depth ≤ maxDepth := by
  constructor
  · intro h
    unfold value? at h
    split at h
    case h_1 stack w hrun =>
      cases h
      have hstart : Reads { stack := [], expected := .value } (leads []) := .value trivial
      have hreads := hstart.run hrun hts
      cases hreads with
      | nothing hdepth => exact ⟨rfl, hdepth⟩
    case h_2 => cases h
  · rintro ⟨rfl, hdepth⟩
    unfold value?
    rw [foldlM_pieces v [] (.inl rfl) (by simpa using hdepth)]
    rfl

end Reader

end Bourse.Json

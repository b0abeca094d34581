import PlainSync.Proofs.Json.Printing

/-!
# Members in the order of their names

Looking up a member does not depend on the order in which the members of an object stand, as
long as each name stands once. Members that are in order are left as they are, and so is a
value all of whose objects have their members in order.
-/

namespace PlainSync.Json

/-- The members stand in the order of their names, each name once. -/
def InOrder (members : List (String × Json)) : Prop :=
  members.Pairwise fun first second => first.1 < second.1

mutual

/-- The members of all objects in the value stand in order. -/
def IsOrdered : Json → Prop
  | array items => ItemsOrdered items
  | object members => InOrder members ∧ MembersOrdered members
  | _ => True

/-- The items of an array are ordered. -/
def ItemsOrdered : List Json → Prop
  | [] => True
  | item :: more => item.IsOrdered ∧ ItemsOrdered more

/-- The values of an object's members are ordered. -/
def MembersOrdered : List (String × Json) → Prop
  | [] => True
  | (_, value) :: more => value.IsOrdered ∧ MembersOrdered more

end

/-! ## Inserting one member -/

/-- A member with the largest name comes last. -/
theorem insertMember_of_forall_lt {member : String × Json} {done : List (String × Json)}
    (hdone : ∀ other ∈ done, other.1 < member.1) : insertMember member done = done ++ [member] := by
  induction done with
  | nil => rfl
  | cons other more ih =>
    obtain ⟨hother, hmore⟩ := List.forall_mem_cons.mp hdone
    rw [insertMember, if_neg (String.lt_asymm hother), if_pos hother, ih hmore, List.cons_append]

/-- The members are those that were there and the new one. -/
theorem mem_of_mem_insertMember {member other : String × Json} {done : List (String × Json)}
    (hother : other ∈ insertMember member done) : other = member ∨ other ∈ done := by
  induction done with
  | nil => exact Or.inl (List.mem_singleton.mp hother)
  | cons first more ih =>
    rw [insertMember] at hother
    split at hother
    · exact List.mem_cons.mp hother
    · split at hother
      · rcases List.mem_cons.mp hother with hfirst | hmore
        · exact Or.inr (List.mem_cons.mpr (Or.inl hfirst))
        · exact (ih hmore).imp_right (List.mem_cons_of_mem first)
      · exact (List.mem_cons.mp hother).imp_right (List.mem_cons_of_mem first)

/-- A member is inserted in its place. -/
theorem inOrder_insertMember (member : String × Json) {done : List (String × Json)}
    (hdone : InOrder done) : InOrder (insertMember member done) := by
  induction done with
  | nil => exact List.pairwise_singleton _ _
  | cons first more ih =>
    obtain ⟨hfirst, hmore⟩ := List.pairwise_cons.mp hdone
    rw [insertMember]
    split
    · next hless =>
      apply List.pairwise_cons.mpr ⟨_, hdone⟩
      intro other hother
      rcases List.mem_cons.mp hother with rfl | hother
      · exact hless
      · exact String.lt_trans hless (hfirst other hother)
    · split
      · next hgreater =>
        apply List.pairwise_cons.mpr ⟨_, ih hmore⟩
        intro other hother
        rcases mem_of_mem_insertMember hother with rfl | hother
        · exact hgreater
        · exact hfirst other hother
      · next hnotLess hnotGreater =>
        have hname : member.1 = first.1 :=
          String.le_antisymm (String.not_lt.mp hnotGreater) (String.not_lt.mp hnotLess)
        apply List.pairwise_cons.mpr ⟨_, hmore⟩
        intro other hother
        rw [hname]
        exact hfirst other hother

/-- A member is found by its name, or the search goes on. -/
theorem find?_member (member : String × Json) (more : List (String × Json)) (name : String) :
    (member :: more).find? (fun other => other.1 == name) =
      if member.1 = name then some member else more.find? fun other => other.1 == name := by
  rw [List.find?_cons]
  by_cases hname : member.1 = name
  · rw [if_pos hname, beq_iff_eq.mpr hname]
  · rw [if_neg hname, beq_eq_false_iff_ne.mpr hname]

/-- A member that is inserted is found, and others are found as before. -/
theorem find?_insertMember (member : String × Json) (done : List (String × Json))
    (name : String) :
    (insertMember member done).find? (fun other => other.1 == name) =
      if member.1 = name then some member else done.find? fun other => other.1 == name := by
  induction done with
  | nil => exact find?_member member [] name
  | cons other more ih =>
    rw [insertMember]
    split
    · exact find?_member member (other :: more) name
    · split
      · next hless =>
        rw [find?_member, find?_member, ih]
        by_cases hmember : member.1 = name
        · have hother : ¬ other.1 = name := by
            intro hother
            rw [hmember, hother] at hless
            exact String.lt_irrefl name hless
          rw [if_neg hother, if_pos hmember, if_pos hmember]
        · rw [if_neg hmember, if_neg hmember]
      · next hnotLess hnotGreater =>
        have hname : member.1 = other.1 :=
          String.le_antisymm (String.not_lt.mp hnotGreater) (String.not_lt.mp hnotLess)
        rw [find?_member, find?_member, hname]
        by_cases hother : other.1 = name
        · rw [if_pos hother, if_pos hother]
        · rw [if_neg hother, if_neg hother, if_neg hother]

/-! ## Sorting members -/

/-- Members that are inserted one after the other are in order. -/
theorem inOrder_sortedMembers (members : List (String × Json)) {done : List (String × Json)}
    (hdone : InOrder done) :
    InOrder (members.foldl (fun done member => insertMember member done) done) := by
  induction members generalizing done with
  | nil => exact hdone
  | cons member more ih => exact ih (inOrder_insertMember member hdone)

/-- Members that are in order are inserted as they are. -/
theorem foldl_insertMember_of_inOrder {members done : List (String × Json)}
    (horder : InOrder (done ++ members)) :
    members.foldl (fun done member => insertMember member done) done = done ++ members := by
  induction members generalizing done with
  | nil => exact (List.append_nil done).symm
  | cons member more ih =>
    have hdone : ∀ other ∈ done, other.1 < member.1 := fun other hother =>
      (List.pairwise_append.mp horder).2.2 other hother member List.mem_cons_self
    rw [List.foldl_cons, insertMember_of_forall_lt hdone, ih, List.append_assoc,
      List.singleton_append]
    rwa [List.append_assoc, List.singleton_append]

/-- Members that are in order stay as they are. -/
theorem sorted_of_inOrder {members : List (String × Json)} (horder : InOrder members) :
    sorted members = object members := by
  have hfold : members.foldl (fun done member => insertMember member done) [] = [] ++ members :=
    foldl_insertMember_of_inOrder horder
  rw [sorted, hfold, List.nil_append]

/-- Of the members of a name the one that is inserted last is found. -/
theorem find?_foldl_insertMember (members done : List (String × Json)) (name : String) :
    (members.foldl (fun done member => insertMember member done) done).find?
        (fun other => other.1 == name) =
      (members.reverse.find? fun other => other.1 == name).or
        (done.find? fun other => other.1 == name) := by
  induction members generalizing done with
  | nil => rfl
  | cons member more ih =>
    rw [List.foldl_cons, ih, find?_insertMember, List.reverse_cons, List.find?_append,
      Option.or_assoc, find?_member, List.find?_nil]
    by_cases hname : member.1 = name
    · rw [if_pos hname, if_pos hname, Option.some_or]
    · rw [if_neg hname, if_neg hname, Option.none_or]

/-- A name is looked up successfully if a member has it. -/
theorem isSome_get?_object {members : List (String × Json)} {name : String} :
    ((object members).get? name).isSome ↔ name ∈ members.map Prod.fst := by
  simp only [get?, Option.isSome_map, List.find?_isSome, beq_iff_eq, List.mem_map]

/-- Sorting members keeps the last one of each name. -/
theorem get?_sorted_eq_get?_reverse (members : List (String × Json)) (name : String) :
    (sorted members).get? name = (object members.reverse).get? name := by
  have hfind := find?_foldl_insertMember members [] name
  rw [List.find?_nil, Option.or_none] at hfind
  unfold get? sorted
  simp only [hfind]

/-- Where each name stands once, a member is found from either end. -/
theorem find?_reverse_of_nodup {members : List (String × Json)}
    (hnames : (members.map Prod.fst).Nodup) (name : String) :
    (members.reverse.find? fun other => other.1 == name) =
      members.find? fun other => other.1 == name := by
  induction members with
  | nil => rfl
  | cons member more ih =>
    obtain ⟨hmember, hmore⟩ := List.nodup_cons.mp hnames
    rw [List.reverse_cons, List.find?_append, ih hmore, find?_member, find?_member,
      List.find?_nil]
    by_cases hname : member.1 = name
    · have hnone : more.find? (fun other => other.1 == name) = none := by
        apply List.find?_eq_none.mpr
        intro other hother hsame
        apply hmember
        rw [hname, ← beq_iff_eq.mp hsame]
        exact List.mem_map_of_mem hother
      rw [if_pos hname, if_pos hname, hnone, Option.none_or]
    · rw [if_neg hname, if_neg hname, Option.or_none]

/-- A member is found in the same way after the members were sorted. -/
theorem get?_sorted {members : List (String × Json)} (hnames : (members.map Prod.fst).Nodup)
    (name : String) : (sorted members).get? name = (object members).get? name := by
  rw [get?_sorted_eq_get?_reverse]
  unfold get?
  simp only [find?_reverse_of_nodup hnames]

/-- A member with a new name takes no other's place. -/
theorem perm_insertMember {member : String × Json} {done : List (String × Json)}
    (hfresh : ∀ other ∈ done, other.1 ≠ member.1) :
    (insertMember member done).Perm (member :: done) := by
  induction done with
  | nil => exact .refl _
  | cons other more ih =>
    obtain ⟨hother, hmore⟩ := List.forall_mem_cons.mp hfresh
    rw [insertMember]
    split
    · exact .refl _
    · split
      · exact ((ih hmore).cons other).trans (.swap member other more)
      · next hnotLess hnotGreater =>
        exact absurd (String.le_antisymm (String.not_lt.mp hnotLess) (String.not_lt.mp hnotGreater))
          hother

/-- No member with a name of its own is lost. -/
theorem perm_foldl_insertMember {members done : List (String × Json)}
    (hnames : ((done ++ members).map Prod.fst).Nodup) :
    (members.foldl (fun done member => insertMember member done) done).Perm (done ++ members) := by
  induction members generalizing done with
  | nil => rw [List.append_nil, List.foldl_nil]
  | cons member more ih =>
    have hsplit : (done ++ member :: more).Perm (member :: done ++ more) := List.perm_middle
    have hnodup := (hsplit.map Prod.fst).nodup_iff.mp hnames
    rw [List.cons_append, List.map_cons, List.nodup_cons] at hnodup
    have hfresh : ∀ other ∈ done, other.1 ≠ member.1 := by
      intro other hother hsame
      apply hnodup.1
      rw [← hsame]
      exact List.mem_map_of_mem (List.mem_append_left more hother)
    have hinsert := perm_insertMember hfresh
    have hmore : (insertMember member done ++ more).Perm (member :: done ++ more) :=
      hinsert.append_right more
    refine (ih ?_).trans (hmore.trans hsplit.symm)
    rw [(hmore.map Prod.fst).nodup_iff, List.cons_append, List.map_cons, List.nodup_cons]
    exact hnodup

/-- Sorted members have different names. The last member of each name is kept, and so all members
are if their names are different. -/
theorem exists_sorted_eq (members : List (String × Json)) :
    ∃ sortedMembers, sorted members = object sortedMembers ∧
      (sortedMembers.map Prod.fst).Nodup ∧
      (∀ name, (object sortedMembers).get? name = (object members.reverse).get? name) ∧
      ((members.map Prod.fst).Nodup → sortedMembers.Perm members) := by
  refine ⟨_, rfl, ?_, get?_sorted_eq_get?_reverse members, fun hnames => ?_⟩
  · have horder := inOrder_sortedMembers members .nil
    exact List.pairwise_map.mpr (horder.imp String.ne_of_lt)
  · have hnames' : (([] ++ members).map Prod.fst).Nodup := hnames
    exact perm_foldl_insertMember hnames'

/-- Sorted members are among the members. -/
theorem mem_of_mem_foldl_insertMember {members done : List (String × Json)}
    {other : String × Json}
    (hother : other ∈ members.foldl (fun done member => insertMember member done) done) :
    other ∈ members ∨ other ∈ done := by
  induction members generalizing done with
  | nil => exact Or.inr hother
  | cons member more ih =>
    rcases ih hother with hmore | hdone
    · exact Or.inl (List.mem_cons_of_mem member hmore)
    · rcases mem_of_mem_insertMember hdone with rfl | hdone
      · exact Or.inl List.mem_cons_self
      · exact Or.inr hdone

/-! ## Sorted values -/

/-- Items are exact if each of them is. -/
theorem itemsExact_iff {items : List Json} : ItemsExact items ↔ ∀ item ∈ items, item.IsExact := by
  induction items with
  | nil => exact iff_of_true trivial (List.forall_mem_nil _)
  | cons item more ih => rw [ItemsExact, ih, List.forall_mem_cons]

/-- Items are ordered if each of them is. -/
theorem itemsOrdered_iff {items : List Json} :
    ItemsOrdered items ↔ ∀ item ∈ items, item.IsOrdered := by
  induction items with
  | nil => exact iff_of_true trivial (List.forall_mem_nil _)
  | cons item more ih => rw [ItemsOrdered, ih, List.forall_mem_cons]

/-- Members are exact if the value of each is. -/
theorem membersExact_iff {members : List (String × Json)} :
    MembersExact members ↔ ∀ member ∈ members, member.2.IsExact := by
  induction members with
  | nil => exact iff_of_true trivial (List.forall_mem_nil _)
  | cons member more ih => rw [MembersExact, ih, List.forall_mem_cons]

/-- Members are ordered if the value of each is. -/
theorem membersOrdered_iff {members : List (String × Json)} :
    MembersOrdered members ↔ ∀ member ∈ members, member.2.IsOrdered := by
  induction members with
  | nil => exact iff_of_true trivial (List.forall_mem_nil _)
  | cons member more ih => rw [MembersOrdered, ih, List.forall_mem_cons]

/-- Members are as deep as the deepest of their values. -/
theorem depthOfMembers_le_iff {members : List (String × Json)} {limit : Nat} :
    depthOfMembers members ≤ limit ↔ ∀ member ∈ members, member.2.depth ≤ limit := by
  induction members with
  | nil => exact iff_of_true (Nat.zero_le limit) (List.forall_mem_nil _)
  | cons member more ih => rw [depthOfMembers, Nat.max_le, ih, List.forall_mem_cons]

/-- Items are as deep as the deepest of them. -/
theorem depthOfItems_le_iff {items : List Json} {limit : Nat} :
    depthOfItems items ≤ limit ↔ ∀ item ∈ items, item.depth ≤ limit := by
  induction items with
  | nil => exact iff_of_true (Nat.zero_le limit) (List.forall_mem_nil _)
  | cons item more ih => rw [depthOfItems, Nat.max_le, ih, List.forall_mem_cons]

/-- A value that is written and read as itself. -/
structure ReadsBack (value : Json) : Prop where
  isExact : value.IsExact
  isOrdered : value.IsOrdered

/-- A truth value is read back. -/
theorem readsBack_bool (value : Bool) : (bool value).ReadsBack := ⟨trivial, trivial⟩

/-- A string is read back. -/
theorem readsBack_string (value : String) : (string value).ReadsBack := ⟨trivial, trivial⟩

/-- A number of one word is read back. -/
theorem readsBack_nat {n : Nat} (hn : n < Nat.pow 2 64) : (nat n).ReadsBack :=
  ⟨integerRange_natCast hn, trivial⟩

/-- An array is read back if its items are. -/
theorem readsBack_array {items : List Json} (hitems : ∀ item ∈ items, item.ReadsBack) :
    (array items).ReadsBack where
  isExact := itemsExact_iff.mpr fun item hitem => (hitems item hitem).isExact
  isOrdered := itemsOrdered_iff.mpr fun item hitem => (hitems item hitem).isOrdered

/-- The object of any members is read as itself once they are sorted. -/
theorem readsBack_sorted {members : List (String × Json)}
    (hmembers : ∀ member ∈ members, member.2.ReadsBack) : (sorted members).ReadsBack := by
  have hdone : ∀ member ∈ members.foldl (fun done member => insertMember member done) [],
      member.2.ReadsBack := fun member hmember =>
    hmembers member ((mem_of_mem_foldl_insertMember hmember).resolve_right List.not_mem_nil)
  refine ⟨?_, inOrder_sortedMembers members .nil, ?_⟩
  · exact membersExact_iff.mpr fun member hmember => (hdone member hmember).isExact
  · exact membersOrdered_iff.mpr fun member hmember => (hdone member hmember).isOrdered

/-- Sorting members nests them no deeper. -/
theorem depth_sorted_le {members : List (String × Json)} {limit : Nat}
    (hmembers : ∀ member ∈ members, member.2.depth ≤ limit) :
    (sorted members).depth ≤ limit + 1 := by
  apply Nat.succ_le_succ
  apply depthOfMembers_le_iff.mpr
  intro member hmember
  exact hmembers member ((mem_of_mem_foldl_insertMember hmember).resolve_right List.not_mem_nil)

/-- A value that is written and read as itself, and is nested no deeper than a limit. -/
structure ReadsBackIn (limit : Nat) (value : Json) : Prop extends ReadsBack value where
  depth_le : value.depth ≤ limit

namespace ReadsBackIn

variable {limit : Nat}

/-- A truth value is not nested. -/
theorem bool (value : Bool) : (bool value).ReadsBackIn limit :=
  ⟨readsBack_bool value, Nat.zero_le limit⟩

/-- A number of one word is not nested. -/
theorem nat {n : Nat} (hn : n < Nat.pow 2 64) : (nat n).ReadsBackIn limit :=
  ⟨readsBack_nat hn, Nat.zero_le limit⟩

/-- A string is not nested. -/
theorem string (value : String) : (string value).ReadsBackIn limit :=
  ⟨readsBack_string value, Nat.zero_le limit⟩

/-- An array is nested deeper than its items. -/
theorem array {items : List Json} (hitems : ∀ item ∈ items, item.ReadsBackIn limit) :
    (array items).ReadsBackIn (limit + 1) where
  toReadsBack := readsBack_array fun item hitem => (hitems item hitem).toReadsBack
  depth_le := Nat.succ_le_succ
    (depthOfItems_le_iff.mpr fun item hitem => (hitems item hitem).depth_le)

/-- An object is nested deeper than its members. -/
theorem sorted {members : List (String × Json)}
    (hmembers : ∀ member ∈ members, member.2.ReadsBackIn limit) :
    (sorted members).ReadsBackIn (limit + 1) where
  toReadsBack := readsBack_sorted fun member hmember => (hmembers member hmember).toReadsBack
  depth_le := depth_sorted_le fun member hmember => (hmembers member hmember).depth_le

end ReadsBackIn

/-! ## Ordered values -/

mutual

/-- An ordered value is its own normal form. -/
theorem normal_of_isOrdered (value : Json) (hvalue : value.IsOrdered) : value.normal = value := by
  match value with
  | .null => rfl
  | .bool _ => rfl
  | .integer _ => rfl
  | .real _ => rfl
  | .string _ => rfl
  | .array items => rw [normal, normalItems_of_itemsOrdered items hvalue]
  | .object members =>
    rw [normal, normalMembers_of_membersOrdered members hvalue.2, sorted_of_inOrder hvalue.1]

/-- Ordered items are as they are read back. -/
theorem normalItems_of_itemsOrdered (items : List Json) (hitems : ItemsOrdered items) :
    normalItems items = items := by
  match items with
  | [] => rfl
  | item :: more =>
    rw [normalItems, normal_of_isOrdered item hitems.1, normalItems_of_itemsOrdered more hitems.2]

/-- Ordered members are as they are read back. -/
theorem normalMembers_of_membersOrdered (members : List (String × Json))
    (hmembers : MembersOrdered members) : normalMembers members = members := by
  match members with
  | [] => rfl
  | (label, member) :: more =>
    rw [normalMembers, normal_of_isOrdered member hmembers.1,
      normalMembers_of_membersOrdered more hmembers.2]

end

end PlainSync.Json

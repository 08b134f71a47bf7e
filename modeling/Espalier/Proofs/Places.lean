import Espalier.Proofs.RoundTrip
import Espalier.Proofs.Validation

/-!
# Where patterns are written

A pattern of a rule is found by the steps that lead to it from the search pattern or from the
replacement.  What stands at these places are the patterns of the rule, and where no name is defined
twice, a place is known by the name that is defined there.
-/

namespace Espalier

/-- A step from a pattern to one that it contains.  From a rule, `search` and `replace` lead to its
patterns. -/
inductive Step where
  | member (name : String) (index : Nat)
  | restriction
  | terminus
  | through
  | above
  | negated
  | item (index : Nat)
  | search
  | replace
deriving DecidableEq, Repr

/-- The name of the member that the step goes to. -/
def Step.member? : Step → Option String
  | .member name _ => some name
  | _ => none

/-- The index of the step in its member or list. -/
def Step.index : Step → Nat
  | .member _ index | .item index => index
  | _ => 0

abbrev Place := List Step

def MemberPattern.items : MemberPattern → List PatternSpec
  | .one p => [p]
  | .many ps => ps

/-- The patterns that are given for a member. -/
def itemsFor (given : List (String × MemberPattern)) (name : String) : List PatternSpec :=
  ((given.lookup name).map MemberPattern.items).getD []

def AgentSpec.child : AgentSpec → Step → Option PatternSpec
  | .standard _ given, .member name index => (itemsFor given name)[index]?
  | .star restriction, .restriction => restriction
  | .stuff terminus _, .terminus => some terminus
  | .stuff _ restriction, .restriction => restriction
  | .anyNode terminus, .terminus => some terminus
  | .overlay through _, .through => some through
  | .overlay _ above, .above => some above
  | .notMatch p, .negated => some p
  | .matchAll ps, .item index => ps[index]?
  | .matchAny ps, .item index => ps[index]?
  | .greenGrass through, .through => some through
  | .slave through _ _ _, .through => some through
  | .slave _ search _ _, .search => some search
  | .slave _ _ replace _, .replace => replace
  | _, _ => none

/-- What stands in a pattern at the end of some steps. -/
def PatternSpec.part? : PatternSpec → Place → Option PatternSpec
  | p, [] => some p
  | p, step :: path => (p.agent.child step).bind (·.part? path)

/-- What stands in a rule at a place. -/
def RuleSpec.patternAt (r : RuleSpec) : Place → Option PatternSpec
  | .search :: path => r.search.part? path
  | .replace :: path => r.replace.bind (·.part? path)
  | _ => none

/-- The members of a standard pattern are in the order of their names. -/
def AgentSpec.Sorted : AgentSpec → Prop
  | .standard _ given => NamesSorted given
  | _ => True

def RuleSpec.Sorted (r : RuleSpec) : Prop := ∀ p ∈ r.patterns, p.agent.Sorted

instance : (agent : AgentSpec) → Decidable agent.Sorted
  | .standard _ given => inferInstanceAs (Decidable (NamesSorted given))
  | .star _ | .stuff .. | .anyNode _ | .overlay .. | .notMatch _ | .matchAll _ | .matchAny _
  | .greenGrass _ | .slave .. | .ref => isTrue trivial

instance (r : RuleSpec) : Decidable r.Sorted :=
  inferInstanceAs (Decidable (∀ p ∈ r.patterns, p.agent.Sorted))

def PatternSpec.defines (name : String) (p : PatternSpec) : Bool := !p.isRef && p.name == some name

/-- No name is defined twice. -/
def RuleSpec.DefinesOnce (r : RuleSpec) : Prop :=
  ∀ name, r.patterns.countP (PatternSpec.defines name) ≤ 1

theorem PatternSpec.defines_iff {name : String} {p : PatternSpec} :
    p.defines name = true ↔ p.isRef = false ∧ p.name = some name := by
  simp [defines]

/-! ## Steps and parts -/

theorem MemberPattern.parts_eq (m : MemberPattern) : m.parts = listParts m.items := by
  cases m with
  | one p => rw [MemberPattern.parts, items, listParts, listParts, List.append_nil]
  | many ps => rw [MemberPattern.parts, items]

theorem PatternSpec.parts_eq (p : PatternSpec) : p.parts = p :: p.agent.parts := by
  cases p
  rw [PatternSpec.parts, PatternSpec.agent]

theorem sublist_listParts {ps : List PatternSpec} {i : Nat} {p : PatternSpec}
    (h : ps[i]? = some p) : p.parts.Sublist (listParts ps) := by
  induction ps generalizing i with
  | nil => simp at h
  | cons q ps ih =>
    rw [listParts]
    cases i with
    | zero =>
      obtain rfl : q = p := by simpa using h
      exact List.sublist_append_left _ _
    | succ i => exact (ih (by simpa using h)).trans (List.sublist_append_right _ _)

/-- Whatever is counted, it is counted in patterns apart from each other. -/
theorem countP_listParts (f : PatternSpec → Bool) {ps : List PatternSpec} {i j : Nat}
    {p q : PatternSpec} (hij : i ≠ j) (hp : ps[i]? = some p) (hq : ps[j]? = some q) :
    p.parts.countP f + q.parts.countP f ≤ (listParts ps).countP f := by
  induction ps generalizing i j with
  | nil => simp at hp
  | cons p' ps ih =>
    rw [listParts, List.countP_append]
    cases i with
    | zero =>
      obtain ⟨j, rfl⟩ := Nat.exists_eq_succ_of_ne_zero hij.symm
      obtain rfl : p' = p := by simpa using hp
      exact Nat.add_le_add_left ((sublist_listParts (by simpa using hq)).countP_le) _
    | succ i =>
      rw [List.getElem?_cons_succ] at hp
      cases j with
      | zero =>
        obtain rfl : p' = q := by simpa using hq
        rw [Nat.add_comm]
        exact Nat.add_le_add_left (sublist_listParts hp).countP_le _
      | succ j =>
        exact Nat.le_add_left_of_le (ih (by simpa using hij) hp (by simpa using hq))

theorem sublist_membersParts {given : List (String × MemberPattern)} {name : String}
    {m : MemberPattern} (h : given.lookup name = some m) :
    m.parts.Sublist (membersParts given) := by
  induction given with
  | nil => cases h
  | cons e given ih =>
    obtain ⟨name', m'⟩ := e
    rw [membersParts]
    rw [List.lookup_cons] at h
    split at h
    next =>
      obtain rfl := Option.some.inj h
      exact List.sublist_append_left _ _
    next => exact (ih h).trans (List.sublist_append_right _ _)

theorem countP_membersParts (f : PatternSpec → Bool) {given : List (String × MemberPattern)}
    {name name' : String} {m m' : MemberPattern} (hne : name ≠ name')
    (h : given.lookup name = some m) (h' : given.lookup name' = some m') :
    m.parts.countP f + m'.parts.countP f ≤ (membersParts given).countP f := by
  induction given with
  | nil => cases h
  | cons e given ih =>
    obtain ⟨name₁, m₁⟩ := e
    rw [membersParts, List.countP_append]
    rw [List.lookup_cons] at h h'
    split at h
    next heq =>
      obtain rfl := Option.some.inj h
      obtain rfl := eq_of_beq heq
      rw [beq_eq_false_iff_ne.mpr hne.symm] at h'
      exact Nat.add_le_add_left (sublist_membersParts h').countP_le _
    next =>
      split at h'
      next =>
        obtain rfl := Option.some.inj h'
        rw [Nat.add_comm]
        exact Nat.add_le_add_left (sublist_membersParts h).countP_le _
      next => exact Nat.le_add_left_of_le (ih h h')

theorem exists_of_mem_optionParts {o : Option PatternSpec} {q : PatternSpec}
    (h : q ∈ optionParts o) : ∃ p, o = some p ∧ q ∈ p.parts := by
  cases o with
  | none =>
    rw [optionParts] at h
    cases h
  | some p => exact ⟨p, rfl, by rwa [optionParts] at h⟩

theorem exists_of_mem_listParts {ps : List PatternSpec} {q : PatternSpec} (h : q ∈ listParts ps) :
    ∃ (i : Nat) (p : PatternSpec), ps[i]? = some p ∧ q ∈ p.parts := by
  induction ps with
  | nil =>
    rw [listParts] at h
    cases h
  | cons p ps ih =>
    rw [listParts, List.mem_append] at h
    rcases h with h | h
    · exact ⟨0, p, rfl, h⟩
    · obtain ⟨i, p', hp', hq⟩ := ih h
      exact ⟨i + 1, p', by simpa using hp', hq⟩

theorem exists_of_mem_membersParts {given : List (String × MemberPattern)} {q : PatternSpec}
    (h : q ∈ membersParts given) : ∃ e ∈ given, q ∈ e.2.parts := by
  induction given with
  | nil =>
    rw [membersParts] at h
    cases h
  | cons e given ih =>
    obtain ⟨name, m⟩ := e
    rw [membersParts, List.mem_append] at h
    rcases h with h | h
    · exact ⟨_, List.mem_cons_self, h⟩
    · obtain ⟨e, he, hq⟩ := ih h
      exact ⟨e, List.mem_cons_of_mem _ he, hq⟩

theorem exists_lookup_of_itemsFor {given : List (String × MemberPattern)} {name : String} {i : Nat}
    {p : PatternSpec} (h : (itemsFor given name)[i]? = some p) :
    ∃ m, given.lookup name = some m ∧ m.items[i]? = some p := by
  unfold itemsFor at h
  cases hm : given.lookup name with
  | none => simp [hm] at h
  | some m => exact ⟨m, rfl, by simpa [hm] using h⟩

theorem itemsFor_of_lookup {given : List (String × MemberPattern)} {name : String}
    {m : MemberPattern} (h : given.lookup name = some m) : itemsFor given name = m.items := by
  rw [itemsFor, h]
  rfl

namespace AgentSpec

variable {agent : AgentSpec} {step step' : Step} {p q : PatternSpec}

theorem sublist_parts_of_child (h : agent.child step = some p) : p.parts.Sublist agent.parts := by
  unfold child at h
  split at h
  case h_1 value given name index =>
    obtain ⟨m, hm, hp⟩ := exists_lookup_of_itemsFor h
    rw [parts]
    exact ((m.parts_eq ▸ sublist_listParts hp).trans (sublist_membersParts hm))
  case h_9 | h_10 =>
    rw [parts]
    exact sublist_listParts h
  case h_15 => cases h
  all_goals
    cases h
    simp [parts, optionParts]

theorem countP_parts_of_child (f : PatternSpec → Bool) (hne : step ≠ step')
    (h : agent.child step = some p) (h' : agent.child step' = some q) :
    p.parts.countP f + q.parts.countP f ≤ agent.parts.countP f := by
  cases agent with
  | standard value given =>
    cases step with
    | member name i =>
      cases step' with
      | member name' j =>
        obtain ⟨m, hm, hp⟩ := exists_lookup_of_itemsFor h
        obtain ⟨m', hm', hq⟩ := exists_lookup_of_itemsFor h'
        rw [parts]
        by_cases heq : name = name'
        · obtain rfl := heq
          obtain rfl := Option.some.inj (hm.symm.trans hm')
          have hparts : m.parts.countP f ≤ (membersParts given).countP f :=
            (sublist_membersParts hm).countP_le
          refine Nat.le_trans ?_ hparts
          rw [m.parts_eq]
          exact countP_listParts f (fun hij => hne (by rw [hij])) hp hq
        · refine Nat.le_trans (Nat.add_le_add ?_ ?_) (countP_membersParts f heq hm hm')
          · exact (m.parts_eq ▸ sublist_listParts hp).countP_le
          · exact (m'.parts_eq ▸ sublist_listParts hq).countP_le
      | _ => cases h'
    | _ => cases h
  | matchAll ps | matchAny ps =>
    cases step with
    | item i =>
      cases step' with
      | item j =>
        rw [parts]
        exact countP_listParts f (fun hij => hne (by rw [hij])) h h'
      | _ => cases h'
    | _ => cases h
  | _ =>
    cases step <;> cases h <;> cases step' <;> cases h' <;>
      simp [parts, optionParts] at hne ⊢ <;> omega

theorem exists_child_of_mem_parts (hsorted : agent.Sorted) (hq : q ∈ agent.parts) :
    ∃ step p, agent.child step = some p ∧ q ∈ p.parts := by
  cases agent with
  | standard value given =>
    rw [parts] at hq
    obtain ⟨⟨name, m⟩, hm, hq⟩ := exists_of_mem_membersParts hq
    rw [m.parts_eq] at hq
    obtain ⟨i, p, hp, hq⟩ := exists_of_mem_listParts hq
    have hlookup : given.lookup name = some m := lookup_of_mem hsorted hm
    exact ⟨.member name i, p, by rw [child, itemsFor_of_lookup hlookup, hp], hq⟩
  | matchAll ps | matchAny ps =>
    rw [parts] at hq
    obtain ⟨i, p, hp, hq⟩ := exists_of_mem_listParts hq
    exact ⟨.item i, p, hp, hq⟩
  | star restriction =>
    rw [parts] at hq
    obtain ⟨p, rfl, hq⟩ := exists_of_mem_optionParts hq
    exact ⟨.restriction, p, rfl, hq⟩
  | stuff terminus restriction =>
    rw [parts, List.mem_append] at hq
    rcases hq with hq | hq
    · exact ⟨.terminus, terminus, rfl, hq⟩
    · obtain ⟨p, rfl, hq⟩ := exists_of_mem_optionParts hq
      exact ⟨.restriction, p, rfl, hq⟩
  | anyNode terminus => exact ⟨.terminus, terminus, rfl, by rwa [parts] at hq⟩
  | overlay through above =>
    rw [parts, List.mem_append] at hq
    rcases hq with hq | hq
    · exact ⟨.through, through, rfl, hq⟩
    · exact ⟨.above, above, rfl, hq⟩
  | notMatch p => exact ⟨.negated, p, rfl, by rwa [parts] at hq⟩
  | greenGrass through => exact ⟨.through, through, rfl, by rwa [parts] at hq⟩
  | slave through search replace mode =>
    rw [parts, List.mem_append, List.mem_append] at hq
    rcases hq with (hq | hq) | hq
    · exact ⟨.through, through, rfl, hq⟩
    · exact ⟨.search, search, rfl, hq⟩
    · obtain ⟨p, rfl, hq⟩ := exists_of_mem_optionParts hq
      exact ⟨.replace, p, rfl, hq⟩
  | ref =>
    rw [parts] at hq
    cases hq

end AgentSpec

/-! ## Places -/

namespace PatternSpec

variable {p q : PatternSpec} {path path' : Place} {name : String}

theorem part?_cons (p : PatternSpec) (step : Step) (path : Place) :
    p.part? (step :: path) = (p.agent.child step).bind (·.part? path) := by
  rw [part?]

theorem part?_append (p : PatternSpec) (path path' : Place) :
    p.part? (path ++ path') = (p.part? path).bind (·.part? path') := by
  induction path generalizing p with
  | nil => rw [List.nil_append, part?, Option.bind_some]
  | cons step path ih =>
    rw [List.cons_append, part?_cons, part?_cons, Option.bind_assoc]
    exact congrArg _ (funext ih)

theorem sublist_parts_of_part? (h : p.part? path = some q) : q.parts.Sublist p.parts := by
  induction path generalizing p with
  | nil =>
    obtain rfl : p = q := by simpa [part?] using h
    exact List.Sublist.refl _
  | cons step path ih =>
    rw [part?_cons] at h
    obtain ⟨p', hp', hq⟩ := Option.bind_eq_some_iff.mp h
    rw [p.parts_eq]
    exact ((ih hq).trans (AgentSpec.sublist_parts_of_child hp')).cons _

theorem isRef_of_child {step : Step} (h : p.agent.child step = some q) : p.isRef = false := by
  unfold isRef
  split
  next href =>
    rw [href] at h
    cases h
  next => rfl

theorem mem_parts_self (p : PatternSpec) : p ∈ p.parts := by
  rw [p.parts_eq]
  exact List.mem_cons_self

/-- Every part of a pattern stands somewhere in it. -/
theorem exists_part?_of_mem (hsorted : ∀ q ∈ p.parts, q.agent.Sorted) (hq : q ∈ p.parts) :
    ∃ path, p.part? path = some q := by
  induction hn : p.parts.length using Nat.strongRecOn generalizing p with
  | ind n ih =>
    rw [p.parts_eq, List.mem_cons] at hq
    rcases hq with rfl | hq
    · exact ⟨[], by rw [part?]⟩
    · obtain ⟨step, p', hp', hq⟩ :=
        AgentSpec.exists_child_of_mem_parts (hsorted p p.mem_parts_self) hq
      have hsub : p'.parts.Sublist p.agent.parts := AgentSpec.sublist_parts_of_child hp'
      have hlt : p'.parts.length < n := by
        rw [← hn, p.parts_eq, List.length_cons]
        exact Nat.lt_succ_of_le hsub.length_le
      have hparts : p'.parts ⊆ p.parts := by
        rw [p.parts_eq]
        exact fun q' hq' => List.mem_cons_of_mem _ (hsub.subset hq')
      obtain ⟨path, hpath⟩ := ih _ hlt (fun q' hq' => hsorted q' (hparts hq')) hq rfl
      exact ⟨step :: path, by rw [part?_cons, hp', Option.bind_some, hpath]⟩

theorem one_le_countP_defines (h : p.part? path = some q) (hq : q.defines name = true) :
    1 ≤ p.parts.countP (defines name) :=
  List.one_le_countP_iff.mpr ⟨q, (sublist_parts_of_part? h).subset q.mem_parts_self, hq⟩

theorem two_le_countP_defines {step : Step} (hp : p.defines name = true)
    (h : p.part? (step :: path) = some q) (hq : q.defines name = true) :
    2 ≤ p.parts.countP (defines name) := by
  rw [part?_cons] at h
  obtain ⟨p', hp', h⟩ := Option.bind_eq_some_iff.mp h
  rw [p.parts_eq, List.countP_cons_of_pos hp]
  exact Nat.succ_le_succ (Nat.le_trans (one_le_countP_defines h hq)
    (AgentSpec.sublist_parts_of_child hp').countP_le)

/-- In a pattern that defines a name once, it is defined at one place. -/
theorem path_unique {q' : PatternSpec} (honce : p.parts.countP (defines name) ≤ 1)
    (h : p.part? path = some q) (hq : q.defines name = true) (h' : p.part? path' = some q')
    (hq' : q'.defines name = true) : path = path' := by
  induction path generalizing p path' with
  | nil =>
    cases path' with
    | nil => rfl
    | cons step path' =>
      obtain rfl : p = q := by simpa [part?] using h
      exact absurd honce (Nat.not_le_of_lt (two_le_countP_defines hq h' hq'))
  | cons step path ih =>
    cases path' with
    | nil =>
      obtain rfl : p = q' := by simpa [part?] using h'
      exact absurd honce (Nat.not_le_of_lt (two_le_countP_defines hq' h hq))
    | cons step' path' =>
      rw [part?_cons] at h h'
      obtain ⟨p₁, hp₁, h⟩ := Option.bind_eq_some_iff.mp h
      obtain ⟨p₂, hp₂, h'⟩ := Option.bind_eq_some_iff.mp h'
      rw [p.parts_eq, List.countP_cons] at honce
      by_cases hstep : step = step'
      · obtain rfl := hstep
        obtain rfl := Option.some.inj (hp₁.symm.trans hp₂)
        have hle : p₁.parts.countP (defines name) ≤ p.agent.parts.countP (defines name) :=
          (AgentSpec.sublist_parts_of_child hp₁).countP_le
        rw [ih (by omega) h h']
      · -- Otherwise the name is defined in two parts that are apart.
        have hcount := AgentSpec.countP_parts_of_child (defines name) hstep hp₁ hp₂
        have h₁ := one_le_countP_defines h hq
        have h₂ := one_le_countP_defines h' hq'
        omega

end PatternSpec

namespace RuleSpec

variable {r : RuleSpec} {place place' : Place} {p q : PatternSpec} {name : String}

theorem patternAt_append (h : place ≠ []) (path : Place) :
    r.patternAt (place ++ path) = (r.patternAt place).bind (·.part? path) := by
  cases place with
  | nil => exact absurd rfl h
  | cons step place =>
    cases step with
    | search => exact r.search.part?_append place path
    | replace =>
      rw [List.cons_append, patternAt, patternAt, Option.bind_assoc]
      exact congrArg _ (funext fun p => p.part?_append place path)
    | _ => rfl

theorem ne_nil_of_patternAt (h : r.patternAt place = some p) : place ≠ [] := by
  rintro rfl
  cases h

theorem patternAt_child (h : r.patternAt place = some p) (step : Step) :
    r.patternAt (place ++ [step]) = p.agent.child step := by
  rw [patternAt_append (ne_nil_of_patternAt h), h, Option.bind_some, PatternSpec.part?_cons]
  cases p.agent.child step <;> rfl

theorem sublist_patterns_of_patternAt (h : r.patternAt place = some p) :
    p.parts.Sublist r.patterns := by
  unfold patternAt at h
  split at h
  next path => exact (PatternSpec.sublist_parts_of_part? h).trans (List.sublist_append_left _ _)
  next path =>
    obtain ⟨replace, hreplace, h⟩ := Option.bind_eq_some_iff.mp h
    rw [patterns, hreplace, optionParts]
    exact (PatternSpec.sublist_parts_of_part? h).trans (List.sublist_append_right _ _)
  next => cases h

theorem mem_patterns_of_patternAt (h : r.patternAt place = some p) : p ∈ r.patterns :=
  (sublist_patterns_of_patternAt h).subset p.mem_parts_self

/-- Every pattern of a rule stands somewhere in it. -/
theorem exists_patternAt_of_mem (hsorted : r.Sorted) (h : p ∈ r.patterns) :
    ∃ place, r.patternAt place = some p := by
  rw [Sorted, patterns, List.forall_mem_append] at hsorted
  rw [patterns, List.mem_append] at h
  rcases h with h | h
  · obtain ⟨path, hpath⟩ := PatternSpec.exists_part?_of_mem hsorted.1 h
    exact ⟨.search :: path, hpath⟩
  · obtain ⟨replace, hreplace, h⟩ := exists_of_mem_optionParts h
    rw [hreplace, optionParts] at hsorted
    obtain ⟨path, hpath⟩ := PatternSpec.exists_part?_of_mem hsorted.2 h
    exact ⟨.replace :: path, by rw [patternAt, hreplace, Option.bind_some, hpath]⟩

/-- What holds of the search pattern and of the replacement, and with a pattern of those inside it,
holds at every place. -/
theorem patternAt_induction (r : RuleSpec) {motive : Place → PatternSpec → Prop}
    (search : motive [.search] r.search) (replace : ∀ p, r.replace = some p → motive [.replace] p)
    (child : ∀ place parent step p, r.patternAt place = some parent → parent.isRef = false →
      parent.agent.child step = some p → motive place parent → motive (place ++ [step]) p) :
    ∀ place p, r.patternAt place = some p → motive place p := by
  intro place
  induction place using List.reverseRecOn with
  | nil =>
    intro p h
    cases h
  | append_singleton place step ih =>
    intro p h
    cases place with
    | nil =>
      cases step with
      | search =>
        obtain rfl := Option.some.inj h
        exact search
      | replace =>
        obtain ⟨p', hp', h⟩ := Option.bind_eq_some_iff.mp h
        obtain rfl := Option.some.inj h
        exact replace p' hp'
      | _ => cases h
    | cons first place =>
      have hconcat := h
      rw [patternAt_append (List.cons_ne_nil _ _)] at hconcat
      obtain ⟨parent, hparent, -⟩ := Option.bind_eq_some_iff.mp hconcat
      have hchild : parent.agent.child step = some p := (patternAt_child hparent step).symm.trans h
      exact child _ parent step p hparent (PatternSpec.isRef_of_child hchild) hchild
        (ih parent hparent)

/-- In a rule that defines a name once, it is defined at one place. -/
theorem DefinesOnce.place_unique (honce : r.DefinesOnce) (h : r.patternAt place = some p)
    (hp : p.defines name = true) (h' : r.patternAt place' = some q) (hq : q.defines name = true) :
    place = place' := by
  replace honce := honce name
  rw [patterns, List.countP_append] at honce
  unfold patternAt at h h'
  split at h
  next path =>
    have hcount := PatternSpec.one_le_countP_defines h hp
    split at h'
    next path' => rw [PatternSpec.path_unique (by omega) h hp h' hq]
    next path' =>
      obtain ⟨replace, hreplace, h'⟩ := Option.bind_eq_some_iff.mp h'
      have hcount' := PatternSpec.one_le_countP_defines h' hq
      rw [hreplace, optionParts] at honce
      omega
    next => cases h'
  next path =>
    obtain ⟨replace, hreplace, h⟩ := Option.bind_eq_some_iff.mp h
    have hcount := PatternSpec.one_le_countP_defines h hp
    rw [hreplace, optionParts] at honce
    split at h'
    next path' =>
      have hcount' := PatternSpec.one_le_countP_defines h' hq
      omega
    next path' =>
      rw [hreplace, Option.bind_some] at h'
      rw [PatternSpec.path_unique (by omega) h hp h' hq]
    next => cases h'
  next => cases h

end RuleSpec

/-! ## Places of a valid rule -/

theorem countP_defines_of_checkNames {rule : String} {seen : List String} {ps : List PatternSpec}
    (h : checkNames rule seen ps = []) (name : String) :
    ps.countP (PatternSpec.defines name) ≤ 1 ∧
      (name ∈ seen → ps.countP (PatternSpec.defines name) = 0) := by
  induction ps generalizing seen with
  | nil => simp
  | cons p ps ih =>
    rw [checkNames] at h
    rw [List.countP_cons]
    split at h
    next name' hname href =>
      split at h
      next => cases h
      next hnew =>
        obtain ⟨hle, hzero⟩ := ih h
        have hdefines : p.defines name = true ↔ name' = name := by
          simp [PatternSpec.defines, hname, href]
        have hnew : name' ∉ seen := by simpa using hnew
        split
        next hp =>
          obtain rfl := hdefines.mp hp
          rw [hzero List.mem_cons_self]
          exact ⟨Nat.le_refl 1, fun hmem => absurd hmem hnew⟩
        next => exact ⟨hle, fun hmem => hzero (List.mem_cons_of_mem _ hmem)⟩
    next => cases h
    next hnone =>
      have hp : p.defines name = false := by
        cases hdefines : p.defines name with
        | false => rfl
        | true => simp_all [PatternSpec.defines]
      rw [if_neg (by simp [hp])]
      exact ih h

namespace RuleSpec

variable {r : RuleSpec} {place place' : Place} {p q : PatternSpec} {name : String}
  {known : List String}

theorem definesOnce_of_checkPatterns (h : r.checkPatterns known = []) : r.DefinesOnce :=
  fun name => (countP_defines_of_checkNames (List.append_eq_nil_iff.mp h).1 name).1

end RuleSpec

end Espalier

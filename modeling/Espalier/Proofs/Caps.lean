import Espalier.Proofs.Replacement

/-!
# Runs that end by themselves

A strict run fails when it reaches its cap, and so do the runs of the slaves inside of it, which
have the same cap.  A strict run that succeeds has therefore ended because nothing was left to find,
at every level.  What it has done any run with as many rounds or more does as well, step by step,
whether strict or not.
-/

namespace Espalier

variable {s : Schema}

/-! ## Computations that succeed where others do -/

namespace Grow

variable {ε α β : Type} {f f₁ f' : Forest s}

/-- Wherever `x` succeeds, `y` comes to the same result and leaves the same forest. -/
def Refines (x y : Grow s ε α) : Prop :=
  ∀ f a f', x f = .ok a f' → y f = .ok a f'

theorem bind_of_eq_ok {x : Grow s ε α} {a : α} (h : x f = .ok a f₁) (g : α → Grow s ε β) :
    (x >>= g) f = g a f₁ := by
  simp [Bind.bind, EStateM.bind, h]

theorem exists_of_run'_eq_some {x : Grow s ε α} {a : α} (h : x.run' f = some a) :
    ∃ f', x f = .ok a f' := by
  unfold EStateM.run' EStateM.run at h
  cases hx : x f with
  | ok b f' =>
    rw [hx] at h
    exact ⟨f', by rw [Option.some.inj h]⟩
  | error e f' =>
    rw [hx] at h
    cases h

namespace Refines

variable {x y : Grow s ε α}

theorem refl (x : Grow s ε α) : x.Refines x := fun _ _ _ => id

theorem bind {g h : α → Grow s ε β} (hxy : x.Refines y) (hgh : ∀ a, (g a).Refines (h a)) :
    (x >>= g).Refines (y >>= h) := by
  intro f b f' hb
  obtain ⟨a, f₁, ha, hb⟩ := exists_of_bind_eq_ok hb
  rw [bind_of_eq_ok (hxy f a f₁ ha)]
  exact hgh a f₁ b f' hb

/-- What comes after is the same. -/
theorem bind_right (hxy : x.Refines y) (g : α → Grow s ε β) : (x >>= g).Refines (y >>= g) :=
  hxy.bind fun a => .refl (g a)

/-- What comes before is the same. -/
theorem bind_left (x : Grow s ε α) {g h : α → Grow s ε β} (hgh : ∀ a, (g a).Refines (h a)) :
    (x >>= g).Refines (x >>= h) :=
  (Refines.refl x).bind hgh

theorem mapM {g h : α → Grow s ε β} (hgh : ∀ a, (g a).Refines (h a)) (xs : List α) :
    (xs.mapM g).Refines (xs.mapM h) := by
  induction xs with
  | nil => exact .refl _
  | cons a xs ih =>
    rw [List.mapM_cons, List.mapM_cons]
    exact (hgh a).bind fun b => ih.bind_right _

end Refines

/-! ## Rounds -/

section Rounds

variable {find : Forest s → NodeId → Except Fault (Option Couplings)}
  {rebuild rebuild' : Couplings → Grow s RunError NodeId} {rule : String} {strict : Bool}
  {left hits : Nat} {x : NodeId} {applied : Applied}

theorem rounds_of_none (h : find f x = .ok none) :
    rounds find rebuild rule strict left hits x f = .ok ⟨x, hits⟩ f := by
  rw [rounds.eq_def]
  have hget : (get : Grow s RunError (Forest s)) f = .ok f f := rfl
  simp only [bind, EStateM.bind, hget, h]
  rfl

/-- Rounds that succeed end at once, as nothing is found or a lenient run has no round left, or
rebuild what they have found and go on. -/
theorem rounds_cases (h : rounds find rebuild rule strict left hits x f = .ok applied f') :
    (applied = ⟨x, hits⟩ ∧ f' = f ∧ (find f x = .ok none ∨ left = 0 ∧ strict = false)) ∨
    ∃ c y f₁ left', left = left' + 1 ∧ find f x = .ok (some c) ∧ rebuild c f = .ok y f₁ ∧
      rounds find rebuild rule strict left' (hits + 1) y f₁ = .ok applied f' := by
  cases hfind : find f x with
  | error e =>
    rw [rounds_of_error hfind] at h
    cases h
  | ok found =>
    cases found with
    | none =>
      rw [rounds_of_none hfind] at h
      cases h
      exact .inl ⟨rfl, rfl, .inl rfl⟩
    | some c =>
      cases left with
      | zero =>
        cases strict with
        | false =>
          rw [rounds_zero hfind] at h
          cases h
          exact .inl ⟨rfl, rfl, .inr ⟨rfl, rfl⟩⟩
        | true =>
          rw [rounds.eq_def] at h
          have hget : (get : Grow s RunError (Forest s)) f = .ok f f := rfl
          simp only [bind, EStateM.bind, hget, hfind] at h
          cases h
      | succ left =>
        rw [rounds] at h
        obtain ⟨_, _, hget, h⟩ := exists_of_bind_eq_ok h
        cases hget
        rw [hfind] at h
        obtain ⟨y, f₁, hy, hrest⟩ := exists_of_bind_eq_ok h
        exact .inr ⟨c, y, f₁, left, rfl, rfl, hy, hrest⟩

/-- Strict rounds that succeed stay within their number, and as many rounds or more do the same. -/
theorem rounds_of_strict (hrebuild : ∀ c, (rebuild c).Refines (rebuild' c)) {left' : Nat}
    (hle : left ≤ left') (h : rounds find rebuild rule true left hits x f = .ok applied f') :
    applied.hits ≤ hits + left ∧
      rounds find rebuild' rule strict left' hits x f = .ok applied f' := by
  induction left generalizing left' hits x f with
  | zero =>
    rcases rounds_cases h with ⟨rfl, rfl, hend | ⟨-, hlenient⟩⟩ | ⟨_, _, _, _, hleft, -⟩
    · exact ⟨Nat.le_refl _, rounds_of_none hend⟩
    · cases hlenient
    · cases hleft
  | succ left ih =>
    rcases rounds_cases h with ⟨rfl, rfl, hend | ⟨hleft, -⟩⟩ | ⟨c, y, f₁, _, hleft,
      hfind, hy, hrest⟩
    · exact ⟨Nat.le_add_right _ _, rounds_of_none hend⟩
    · cases hleft
    · cases hleft
      obtain ⟨more, rfl⟩ : ∃ more, left' = more + 1 := ⟨left' - 1, by omega⟩
      obtain ⟨hhits, hmore⟩ := ih (Nat.le_of_succ_le_succ hle) hrest
      refine ⟨by omega, ?_⟩
      rw [rounds_succ hfind (hrebuild c f y f₁ hy)]
      exact hmore

end Rounds

end Grow

/-! ## Building members -/

section Build

variable {α : Type} {build build' : α → Option Key → Grow s RunError Key} {index : α → PatternId}

theorem refines_buildFinal (h : ∀ p base, (build p base).Refines (build' p base)) (p : α)
    (base : Option Key) :
    (buildFinal build index p base).Refines (buildFinal build' index p base) :=
  (h p base).bind_right _

theorem refines_buildItems (h : ∀ p base, (build p base).Refines (build' p base)) (items : List α) :
    (buildItems build items).Refines (buildItems build' items) :=
  (Grow.Refines.mapM (fun p => h p none) items).bind_right _

theorem refines_buildMember (h : ∀ p base, (build p base).Refines (build' p base)) (m : Member α) :
    (buildMember build index m).Refines (buildMember build' index m) := by
  cases m with
  | single p =>
    cases p with
    | none => exact .refl _
    | some p => exact (refines_buildFinal h p none).bind_right _
  | sequence items => exact (refines_buildItems h items).bind_right _
  | collection items => exact (refines_buildItems h items).bind_right _

theorem refines_overlayMember (h : ∀ p base, (build p base).Refines (build' p base)) (m : Member α)
    (kept : Member NodeId) :
    (overlayMember build index m kept).Refines (overlayMember build' index m kept) := by
  unfold overlayMember
  split
  case h_7 p child => exact (refines_buildFinal h p _).bind_right _
  case h_8 => exact refines_buildMember h m
  all_goals exact .refl _

theorem refines_overlayMembers (h : ∀ p base, (build p base).Refines (build' p base))
    (misfit : Fault) (ms : List (Member α)) (kept : List (Member NodeId)) :
    (overlayMembers build index misfit ms kept).Refines
      (overlayMembers build' index misfit ms kept) := by
  induction ms generalizing kept with
  | nil => exact .refl _
  | cons m ms ih =>
    cases kept with
    | nil =>
      rw [overlayMembers, overlayMembers]
      split
      · exact ih []
      · exact (refines_buildMember h m).bind_right _
    | cons k kept => exact (refines_overlayMember h m k).bind fun m' => (ih kept).bind_right _

theorem refines_buildNode (h : ∀ p base, (build p base).Refines (build' p base)) (p : PatternId)
    (kind : KindId) (value : Option Value) (members : List (Member α)) (key : Option Key) :
    (buildNode build index p kind value members key).Refines
      (buildNode build' index p kind value members key) := by
  refine .bind_left _ fun f => ?_
  split
  next k _ => exact (refines_overlayMembers h _ members (f.get k).members).bind_right _
  next => exact (Grow.Refines.mapM (fun m => refines_buildMember h m) members).bind_right _

/-- Only what is put at the end of the path depends on the build. -/
theorem refines_buildBelow (h : ∀ p base, (build p base).Refines (build' p base)) (p : PatternId)
    (terminus : α) (path? : Option (List Site)) (key : Option Key) :
    (buildBelow build index p terminus path? key).Refines
      (buildBelow build' index p terminus path? key) := by
  unfold buildBelow
  split
  next =>
    split
    next => exact .refl _
    next path _ => exact (refines_buildFinal h terminus none).bind_right _
  next => exact .refl _

end Build

namespace Workshop

variable (ps : PatternSet s) (rule : String) {n m : Nat} (strict : Bool)

/-- A strict rebuild that succeeds does not come to the cap in any slave that it meets. -/
theorem refines_build (hle : n ≤ m) (plan : RulePlan) (view : View) (p : PatternId)
    (base : Option Key) :
    (build ⟨ps, rule, ⟨n, true⟩⟩ plan view p base).Refines
      (build ⟨ps, rule, ⟨m, strict⟩⟩ plan view p base) := by
  induction p using Nat.strongRecOn generalizing plan view base with
  | ind p ih =>
    have inner (q : Fin p) (base : Option Key) :
        (build ⟨ps, rule, ⟨n, true⟩⟩ plan view q.val base).Refines
          (build ⟨ps, rule, ⟨m, strict⟩⟩ plan view q.val base) := ih q.val q.isLt plan view base
    rw [build, build]
    dsimp only
    split
    next value members _ => exact refines_buildNode inner p _ value members _
    next => exact .refl _
    next terminus _ _ => exact refines_buildBelow inner p terminus _ _
    next terminus _ => exact refines_buildBelow inner p terminus _ _
    next through above _ => exact inner above _
    next through _ => exact inner through _
    next => exact .refl _
    next => exact .refl _
    next => exact .refl _
    next through root _ =>
      refine Grow.Refines.bind (refines_buildFinal inner through _) fun built => ?_
      cases plan.slave? p with
      | none => exact .refl _
      | some slavePlan =>
        -- The rounds of the slave are those of a strict run, with a rebuild further down.
        refine Grow.Refines.bind_right (fun f₁ applied f₂ h => ?_) _
        refine (Grow.rounds_of_strict (fun c => ?_) hle h).2
        exact (ih root.val root.isLt slavePlan (c :: view) none).bind_right _

end Workshop

namespace Rule

variable {t : Schema}

theorem applyTo_self (r : Rule s) (limits : Limits) (root : NodeId) :
    (r.applyTo limits root : Grow s RunError Applied) = r.apply limits root :=
  dif_pos rfl

/-- A strict run that succeeds stays within its cap, and with any cap above it, strict or not, as
well as with the same one in a lenient run, the rule comes to the same result and leaves the same
forest. -/
theorem applyTo_of_strict (r : Rule s) {root : NodeId} {n m : Nat} (hle : n ≤ m) {f f' : Forest t}
    {applied : Applied} (h : r.applyTo ⟨n, true⟩ root f = .ok applied f') :
    applied.hits ≤ n ∧ (∀ strict, r.applyTo ⟨m, strict⟩ root f = .ok applied f') ∧
      r.applyTo ⟨n, false⟩ root f = .ok applied f' := by
  by_cases heq : t = s
  · subst heq
    simp only [applyTo_self] at h ⊢
    have hruns {m : Nat} (hle : n ≤ m) (strict : Bool) :
        applied.hits ≤ 0 + n ∧ r.apply ⟨m, strict⟩ root f = .ok applied f' := by
      refine Grow.rounds_of_strict (fun c => ?_) hle h
      exact refines_buildFinal (Workshop.refines_build r.patterns r.name strict hle r.plan [c])
        _ none
    refine ⟨?_, fun strict => (hruns hle strict).2, (hruns (Nat.le_refl n) false).2⟩
    exact Nat.le_trans (hruns hle true).1 (Nat.le_of_eq (Nat.zero_add n))
  · rw [applyTo, dif_neg heq] at h
    cases h

/-- The rule that puts a copy of any list in its place, and in that copy, for as long as there is
one, the end of a list with the same ends in the place of the list. -/
def trimCopy : Rule Scene.lists :=
  let patterns := ((((keepEnd.patterns.push ⟨0, .star none⟩).push
    ⟨1, .standard none [.sequence [5]]⟩).push ⟨1, .greenGrass 6⟩).push ⟨1, .slave 6 4⟩).push
    ⟨0, .overlay 7 8⟩
  { name := "trim copy", patterns, search := 7, replace := some 8, mode := .compare
    plan := RulePlan.make patterns 9 [] }

/-- Two rounds are enough for the slave, and one is not.  The rule itself needs one. -/
theorem applyTo_of_strict_trimCopy :
    (trimCopy.applyTo ⟨1, true⟩ 5).run' sharedLists = none ∧
      ∃ f', trimCopy.applyTo ⟨2, true⟩ 5 sharedLists = .ok ⟨21, 1⟩ f' ∧
        (∀ strict, trimCopy.applyTo ⟨1000, strict⟩ 5 sharedLists = .ok ⟨21, 1⟩ f') ∧
        trimCopy.applyTo ⟨2, false⟩ 5 sharedLists = .ok ⟨21, 1⟩ f' := by
  have hone : (trimCopy.apply ⟨1, true⟩ 5).run' sharedLists = none := by decide +kernel
  have htwo : (trimCopy.apply ⟨2, true⟩ 5).run' sharedLists = some ⟨21, 1⟩ := by decide +kernel
  rw [← applyTo_self] at hone htwo
  obtain ⟨f', hrun⟩ := Grow.exists_of_run'_eq_some htwo
  exact ⟨hone, f', hrun, (applyTo_of_strict trimCopy (by decide) hrun).2⟩

end Rule

end Espalier

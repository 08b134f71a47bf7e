import Espalier.Proofs.WellFormed

/-!
# Patterns drafted call by call

A call stands for some patterns, which are appended one after the other up to the first that does
not pass its check.  So whatever is called, and whether it succeeds or fails, the patterns that are
there stay as they are, and all of them are sound.
-/

namespace Espalier

variable {s : Schema}

/-! ## Sound patterns -/

/-- The pattern `n` may stand at `p`: it is of a known kind and refers to earlier patterns only.  If
it is a standard pattern, it has the members of its kind, and a value only if the kind has one; if
it is a match-any, it has a disjunct.  It refers to stars from containers of a standard pattern
only, and from one collection to no more than one. -/
structure Pattern.SoundAt (ps : PatternSet s) (p : PatternId) (n : Pattern PatternId) : Prop where
  kind_lt : n.kind < s.size
  child_lt : ∀ c ∈ n.agent.children, c < p
  category : ∀ value members, n.agent = .standard value members →
    members.map Member.category = (s.layout n.kind).map MemberDecl.category
  valued : ∀ value members, n.agent = .standard (some value) members → s.isValued n.kind = true
  disjuncts : n.agent ≠ .matchAny []
  star : ∀ c ∈ n.agent.children, ps.isStar c = true →
    ∃ value members, n.agent = .standard value members ∧
      ∀ m ∈ members, c ∈ m.children → m.category ≠ .single
  collection : ∀ value members items, n.agent = .standard value members →
    .collection items ∈ members → (items.filter ps.isStar).length ≤ 1

theorem Member.StarsFit.category_ne {α : Type} {isStar : α → Bool} {m : Member α}
    (h : m.StarsFit isStar) {c : α} (hc : c ∈ m.children) (hstar : isStar c = true) :
    m.category ≠ .single := by
  cases m with
  | single child =>
    rw [h c (by simpa [children] using hc)] at hstar
    cases hstar
  | sequence items | collection items => simp [category]

theorem PatternSet.WellFormed.soundAt {ps : PatternSet s} (h : ps.WellFormed) {p : PatternId}
    {n : Pattern PatternId} (hn : ps.nodes[p]? = some n) : n.SoundAt ps p := by
  obtain ⟨hkind, hfits⟩ := h p n hn
  have hlow := ps.child_lt p n hn
  obtain ⟨kind, agent⟩ := n
  constructor
  case kind_lt => exact hkind
  case child_lt => exact hlow
  case category =>
    rintro value members rfl
    exact hfits.2.1
  case valued =>
    rintro value members rfl
    exact hfits.1 rfl
  case disjuncts =>
    rintro rfl
    exact hfits.1 rfl
  case star =>
    intro c hc hstar
    cases agent with
    | standard value members =>
      exact ⟨value, members, rfl, fun m hm hcm => (hfits.2.2 m hm).category_ne hcm hstar⟩
    | matchAny qs => simp [hfits.2 c hc] at hstar
    | _ => simp [hfits c hc] at hstar
  case collection =>
    rintro value members items rfl hitems
    exact hfits.2.2 _ hitems

/-! ## Patterns appended in turn -/

namespace PatternSet

/-- What asking `ps` for the patterns of `ns` in turn comes to: they are appended up to the first
that does not pass its check, and if there is none, the last of them is the result. -/
inductive Drafts : PatternSet s → List (Pattern PatternId) →
    EStateM.Result PatternError (PatternSet s) PatternId → Prop where
  | refused {ps : PatternSet s} {n : Pattern PatternId} {ns : List (Pattern PatternId)}
      {e : PatternError} (h : ps.check n.kind n.agent = .error e) :
      Drafts ps (n :: ns) (.error e ps)
  | last {ps : PatternSet s} {n : Pattern PatternId} (h : ps.check n.kind n.agent = .ok ()) :
      Drafts ps [n] (.ok ps.size (ps.push n))
  | next {ps : PatternSet s} {n : Pattern PatternId} {ns : List (Pattern PatternId)}
      {r : EStateM.Result PatternError (PatternSet s) PatternId}
      (h : ps.check n.kind n.agent = .ok ()) (hrest : Drafts (ps.push n) ns r) :
      Drafts ps (n :: ns) r

theorem drafts_pattern (ps : PatternSet s) (n : Pattern PatternId) :
    ps.Drafts [n] (Draft.pattern n.kind n.agent ps) := by
  unfold Draft.pattern PatternSet.insert
  cases hcheck : ps.check n.kind n.agent with
  | error e => exact .refused hcheck
  | ok u => exact .last hcheck

variable {ps ps' : PatternSet s} {ns : List (Pattern PatternId)} {p : PatternId} {e : PatternError}

theorem toList_push {n : Pattern PatternId} (h : ps.check n.kind n.agent = .ok ()) :
    (ps.push n).nodes.toList = ps.nodes.toList ++ [n] := by
  rw [push, dif_pos (fits_of_check h).2.1]
  exact Array.toList_push

/-- Where all are appended, the result is the last pattern. -/
theorem Drafts.of_ok (h : ps.Drafts ns (.ok p ps')) :
    ps'.nodes.toList = ps.nodes.toList ++ ns ∧ p + 1 = ps'.size := by
  generalize hr : EStateM.Result.ok p ps' = r at h
  induction h with
  | refused => cases hr
  | last h =>
    cases hr
    exact ⟨toList_push h, (size_push (fits_of_check h).2.1).symm⟩
  | next h _ ih =>
    obtain ⟨hnodes, hsize⟩ := ih hr
    refine ⟨?_, hsize⟩
    rw [hnodes, toList_push h, List.append_assoc]
    rfl

/-- Where one is refused, those before it are appended. -/
theorem Drafts.of_error (h : ps.Drafts ns (.error e ps')) :
    ∃ before n after, ns = before ++ n :: after ∧
    ps'.nodes.toList = ps.nodes.toList ++ before ∧ ps'.check n.kind n.agent = .error e := by
  generalize hr : EStateM.Result.error e ps' = r at h
  induction h with
  | @refused _ n ns e h =>
    cases hr
    exact ⟨[], n, ns, rfl, by simp, h⟩
  | last => cases hr
  | @next _ n _ _ h _ ih =>
    obtain ⟨before, m, after, rfl, hnodes, hcheck⟩ := ih hr
    refine ⟨n :: before, m, after, rfl, ?_, hcheck⟩
    rw [hnodes, toList_push h, List.append_assoc]
    rfl

theorem Drafts.append_ok {ms : List (Pattern PatternId)} (h : ps.Drafts ns (.ok p ps'))
    {r : EStateM.Result PatternError (PatternSet s) PatternId} (hms : ps'.Drafts ms r) :
    ps.Drafts (ns ++ ms) r := by
  generalize hr : EStateM.Result.ok p ps' = r' at h
  induction h with
  | refused => cases hr
  | last h =>
    cases hr
    exact .next h hms
  | next h _ ih => exact .next h (ih hr)

theorem Drafts.append_error {ms : List (Pattern PatternId)} (h : ps.Drafts ns (.error e ps')) :
    ps.Drafts (ns ++ ms) (.error e ps') := by
  generalize hr : EStateM.Result.error e ps' = r at h
  induction h with
  | refused h =>
    cases hr
    exact .refused h
  | last => cases hr
  | next h _ ih => exact .next h (ih hr)

/-- A computation that goes on after another one asks for further patterns. -/
theorem Drafts.bind {ms : List (Pattern PatternId)} {x : Draft s PatternId}
    {g : PatternId → Draft s PatternId} (hx : ps.Drafts ns (x ps))
    (hg : ∀ p ps', x ps = .ok p ps' → ps'.Drafts ms (g p ps')) :
    ps.Drafts (ns ++ ms) ((x >>= g) ps) := by
  simp only [Bind.bind, EStateM.bind]
  cases hrun : x ps with
  | ok p ps' => exact (hrun ▸ hx).append_ok (hg p ps' hrun)
  | error e ps' => exact (hrun ▸ hx).append_error

/-- The patterns that a computation leaves, whether it fails or not. -/
def left : EStateM.Result PatternError (PatternSet s) PatternId → PatternSet s
  | .ok _ ps | .error _ ps => ps

theorem Drafts.isPrefix {r : EStateM.Result PatternError (PatternSet s) PatternId}
    (h : ps.Drafts ns r) : ps.nodes.toList <+: (left r).nodes.toList := by
  cases r with
  | ok p ps' =>
    rw [left, h.of_ok.1]
    exact List.prefix_append _ _
  | error e ps' =>
    obtain ⟨before, n, after, -, hnodes, -⟩ := h.of_error
    rw [left, hnodes]
    exact List.prefix_append _ _

/-- Each of the patterns has passed its check where it is appended. -/
theorem Drafts.wellFormed {r : EStateM.Result PatternError (PatternSet s) PatternId}
    (h : ps.Drafts ns r) (hps : ps.WellFormed) : (left r).WellFormed := by
  have hpush {ps : PatternSet s} {n : Pattern PatternId} (hps : ps.WellFormed)
      (h : ps.check n.kind n.agent = .ok ()) : (ps.push n).WellFormed :=
    hps.insert (by rw [PatternSet.insert, h])
  induction h with
  | refused => exact hps
  | last h => exact hpush hps h
  | next h _ ih => exact ih (hpush hps h)

/-- The patterns of a wrapped rule where `n` patterns come before them. -/
def wrapped (n : Nat) (search : PatternId) (replace : Option PatternId) :
    Mode → List (Pattern PatternId)
  | .compare => [⟨Schema.nodeKind, .overlay search (replace.getD search)⟩]
  | .search => [⟨Schema.nodeKind, .overlay search (replace.getD search)⟩,
      ⟨Schema.nodeKind, .stuff n none⟩]

theorem drafts_wrap (ps : PatternSet s) (search : PatternId) (replace : Option PatternId)
    (mode : Mode) :
    ps.Drafts (wrapped ps.size search replace mode) (Draft.wrap search replace mode ps) := by
  have hoverlay := ps.drafts_pattern ⟨Schema.nodeKind, .overlay search (replace.getD search)⟩
  cases mode with
  | compare =>
    have hrun : (Draft.wrap search replace .compare : Draft s PatternId) ps =
        Draft.pattern Schema.nodeKind (.overlay search (replace.getD search)) ps := by
      simp only [Draft.wrap, Bind.bind, EStateM.bind]
      cases Draft.pattern Schema.nodeKind (.overlay search (replace.getD search)) ps <;> rfl
    rw [hrun]
    exact hoverlay
  | search =>
    refine hoverlay.bind fun p ps' hrun => ?_
    obtain rfl : p = ps.size := (eq_push_of_draft hrun).2.1
    exact ps'.drafts_pattern ⟨Schema.nodeKind, .stuff ps.size none⟩

end PatternSet

/-! ## Calls -/

/-- What can be asked of a pattern set. -/
inductive PatternCall where
  | standard (kind : KindId) (members : List (Member PatternId))
  | valued (kind : KindId) (value : Value) (members : List (Member PatternId))
  | blank (kind : KindId)
  | star (kind : KindId) (restriction : Option PatternId)
  | stuff (kind : KindId) (terminus : PatternId) (restriction : Option PatternId)
  | anyNode (kind : KindId) (terminus : PatternId)
  | overlay (kind : KindId) (through above : PatternId)
  | notMatch (kind : KindId) (pattern : PatternId)
  | matchAll (kind : KindId) (patterns : List PatternId)
  | matchAny (kind : KindId) (patterns : List PatternId)
  | greenGrass (kind : KindId) (through : PatternId)
  | slave (kind : KindId) (through search : PatternId) (replace : Option PatternId) (mode : Mode)
  | wrap (search : PatternId) (replace : Option PatternId) (mode : Mode)

namespace PatternCall

def run : PatternCall → Draft s PatternId
  | standard kind members => Draft.pattern kind (.standard none members)
  | valued kind value members => Draft.pattern kind (.standard (some value) members)
  | blank kind => Draft.blank kind
  | star kind restriction => Draft.pattern kind (.star restriction)
  | stuff kind terminus restriction => Draft.pattern kind (.stuff terminus restriction)
  | anyNode kind terminus => Draft.pattern kind (.anyNode terminus)
  | overlay kind through above => Draft.pattern kind (.overlay through above)
  | notMatch kind pattern => Draft.pattern kind (.notMatch pattern)
  | matchAll kind patterns => Draft.pattern kind (.matchAll patterns)
  | matchAny kind patterns => Draft.pattern kind (.matchAny patterns)
  | greenGrass kind through => Draft.pattern kind (.greenGrass through)
  | slave kind through search replace mode => Draft.slave kind through search replace mode
  | wrap search replace mode => Draft.wrap search replace mode

/-- The patterns that a call stands for where `n` patterns come before them. -/
def patterns (s : Schema) (n : Nat) : PatternCall → List (Pattern PatternId)
  | standard kind members => [⟨kind, .standard none members⟩]
  | valued kind value members => [⟨kind, .standard (some value) members⟩]
  | blank kind => [⟨kind, .standard none (Forest.emptyMembers s kind)⟩]
  | star kind restriction => [⟨kind, .star restriction⟩]
  | stuff kind terminus restriction => [⟨kind, .stuff terminus restriction⟩]
  | anyNode kind terminus => [⟨kind, .anyNode terminus⟩]
  | overlay kind through above => [⟨kind, .overlay through above⟩]
  | notMatch kind pattern => [⟨kind, .notMatch pattern⟩]
  | matchAll kind patterns => [⟨kind, .matchAll patterns⟩]
  | matchAny kind patterns => [⟨kind, .matchAny patterns⟩]
  | greenGrass kind through => [⟨kind, .greenGrass through⟩]
  | slave kind through search replace mode =>
    let rule := PatternSet.wrapped n search replace mode
    rule ++ [⟨kind, .slave through (n + rule.length - 1)⟩]
  | wrap search replace mode => PatternSet.wrapped n search replace mode

/-- The patterns after some calls, each on what those before it have left. -/
def after (ps : PatternSet s) (calls : List PatternCall) : PatternSet s :=
  calls.foldl (fun ps call => PatternSet.left (call.run ps)) ps

/-- A call appends the patterns that it stands for. -/
theorem drafts_run (ps : PatternSet s) (call : PatternCall) :
    ps.Drafts (call.patterns s ps.size) (call.run ps) := by
  cases call with
  | slave kind through search replace mode =>
    refine (ps.drafts_wrap search replace mode).bind fun root ps' hrun => ?_
    have hwrap := ps.drafts_wrap search replace mode
    rw [hrun] at hwrap
    obtain ⟨hnodes, hroot⟩ := hwrap.of_ok
    have hsize : ps'.size = ps.size + (PatternSet.wrapped ps.size search replace mode).length := by
      simpa [PatternSet.size] using congrArg List.length hnodes
    obtain rfl : root = ps.size + (PatternSet.wrapped ps.size search replace mode).length - 1 := by
      rw [← hsize]
      exact Nat.eq_sub_of_add_eq hroot
    exact ps'.drafts_pattern ⟨kind, .slave through _⟩
  | wrap search replace mode => exact ps.drafts_wrap search replace mode
  | _ => exact ps.drafts_pattern ⟨_, _⟩

theorem wellFormed_after {ps : PatternSet s} (hps : ps.WellFormed) (calls : List PatternCall) :
    (after ps calls).WellFormed := by
  induction calls generalizing ps with
  | nil => exact hps
  | cons call calls ih => exact ih ((drafts_run ps call).wellFormed hps)

theorem isPrefix_after (ps : PatternSet s) (calls : List PatternCall) :
    ps.nodes.toList <+: (after ps calls).nodes.toList := by
  induction calls generalizing ps with
  | nil => exact List.prefix_rfl
  | cons call calls ih => exact (drafts_run ps call).isPrefix.trans (ih _)

/-- The patterns that calls make where there were none. -/
def made (s : Schema) (calls : List PatternCall) : PatternSet s := after .empty calls

/-- After any calls, failed ones among them, every pattern is sound.  Whatever calls follow leave
every pattern as it is and where it is.  A call that succeeds has appended the patterns that it
stands for and gives the last of them; one that fails has appended those before the first that is
not accepted. -/
theorem soundAt_made (s : Schema) (calls : List PatternCall) :
    (∀ (p : PatternId) (n : Pattern PatternId), (made s calls).nodes[p]? = some n →
      n.SoundAt (made s calls) p) ∧
    (∀ later, (made s calls).nodes.toList <+: (made s (calls ++ later)).nodes.toList) ∧
    (∀ (call : PatternCall) (p : PatternId) (ps' : PatternSet s),
      call.run (made s calls) = .ok p ps' →
      ps'.nodes.toList = (made s calls).nodes.toList ++ call.patterns s (made s calls).size ∧
        p + 1 = ps'.size) ∧
    ∀ (call : PatternCall) (e : PatternError) (ps' : PatternSet s),
      call.run (made s calls) = .error e ps' →
        ∃ before n rest, call.patterns s (made s calls).size = before ++ n :: rest ∧
          ps'.nodes.toList = (made s calls).nodes.toList ++ before ∧
          ps'.check n.kind n.agent = .error e := by
  refine ⟨?_, ?_, ?_, ?_⟩
  · intro p n hn
    exact (wellFormed_after PatternSet.wellFormed_empty calls).soundAt hn
  · intro later
    have hlater : made s (calls ++ later) = after (made s calls) later := List.foldl_append
    rw [hlater]
    exact isPrefix_after _ later
  · intro call p ps' hrun
    have hdrafts := drafts_run (made s calls) call
    rw [hrun] at hdrafts
    exact hdrafts.of_ok
  · intro call e ps' hrun
    have hdrafts := drafts_run (made s calls) call
    rw [hrun] at hdrafts
    exact hdrafts.of_error

/-- A slave whose rule is in order but that matches through a pattern which is not there. -/
example : ((made .base [.blank 0, .slave 0 7 0 none .search]).nodes.map (·.agent.word)).toList =
    ["standard", "overlay", "stuff"] := by decide +kernel

end PatternCall

end Espalier

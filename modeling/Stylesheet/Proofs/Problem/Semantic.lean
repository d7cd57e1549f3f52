import Stylesheet.Proofs.Problem.Lexical
import Stylesheet.Reading.Document

/-!
# Problems of meaning

Each part of a document is read with problems of a few kinds (`Noted.Only`): a value may hold a color
that is none, a selector a prefix that nothing binds; a descriptor may stand twice in a font face, and
an at-rule may say nothing. So whatever tree a document is read from, what is noted on the way are
problems of meaning (`buildDocument_class`), and they have what their messages need.
-/

namespace Stylesheet

/-- Something is read, and the problems found in it are complete, and of some kinds. -/
def Noted.Only {α : Type} (source : String) (kinds : List ProblemKind) (x : Noted α) : Prop :=
  ∀ p ∈ x.problems, p.kind ∈ kinds ∧ p.IsComplete source

namespace Noted.Only

variable {α β : Type} {source : String} {kinds others : List ProblemKind}

theorem kind_mem {x : Noted α} (h : x.Only source kinds) : ∀ p ∈ x.problems, p.kind ∈ kinds :=
  fun p hp => (h p hp).1

theorem pure (a : α) : Only source kinds (pure a : Noted α) := fun _ h => absurd h List.not_mem_nil

theorem bind {x : Noted α} {f : α → Noted β} (hx : x.Only source kinds)
    (hf : ∀ a, (f a).Only source kinds) : (x >>= f).Only source kinds := by
  intro p hp
  rcases List.mem_append.1 hp with hp | hp
  · exact hx p hp
  · exact hf x.result p hp

theorem mono {x : Noted α} (h : x.Only source kinds) (hs : kinds ⊆ others) : x.Only source others :=
  fun p hp => ⟨hs (h p hp).1, (h p hp).2⟩

theorem report {kind : ProblemKind} {span : Span} {params : List (String × String)}
    (hk : kind ∈ kinds) (hp : params.map Prod.fst = kind.template.places) :
    (Noted.report (.ofParams kind source span params)).Only source kinds :=
  fun _ hq => List.mem_singleton.1 hq ▸ ⟨hk, Problem.isComplete_ofParams hp⟩

theorem collect {f : α → Noted β} (hf : ∀ a, (f a).Only source kinds) (l : List α) :
    (Noted.collect f l).Only source kinds := by
  induction l with
  | nil => exact .pure _
  | cons a l ih => exact .bind (hf a) fun _ => .bind ih fun _ => .pure _

theorem collect? {f : α → Noted (Option β)} (hf : ∀ a, (f a).Only source kinds) (l : List α) :
    (Noted.collect? f l).Only source kinds :=
  .bind (collect hf l) fun _ => .pure _

end Noted.Only

namespace Reading

variable (r : Reading)

/-! ## Values -/

theorem only_literal (index : Nat) : (r.literal index).Only r.source [.invalidColor] := by
  have hash (t : Token) (digits : String) : (r.hashValue t digits).Only r.source [.invalidColor] := by
    unfold hashValue
    split
    · exact .pure _
    · exact .bind (.report (List.mem_singleton_self _) rfl) fun _ => .pure _
  unfold literal
  split
  · exact .pure _
  · split
    case h_7 => exact .bind (hash _ _) fun _ => .pure _
    all_goals exact .pure _

mutual

theorem only_term (t : Tree) : (r.term t).Only r.source [.invalidColor] := by
  match t with
  | .leaf _ => rw [term] <;> first | exact .pure _ | simp
  | .node kind place children =>
    cases kind with
    | term =>
      rw [term]
      exact r.only_literal _
    | functionCall =>
      rw [term]
      split
      · exact .pure _
      · exact .bind (only_arguments children) fun _ => .pure _
    | namedArgument =>
      rw [term]
      split
      · exact .pure _
      · exact .bind (only_firstTerm children) fun _ => .pure _
    | _ => rw [term] <;> first | exact .pure _ | simp

theorem only_firstTerm (ts : List Tree) : (r.firstTerm ts).Only r.source [.invalidColor] := by
  match ts with
  | [] => exact .pure _
  | .leaf _ :: rest =>
    rw [firstTerm]
    exact only_firstTerm rest
  | .node kind place children :: _ =>
    rw [firstTerm]
    exact only_term _

theorem only_arguments (ts : List Tree) : (r.arguments ts).Only r.source [.invalidColor] := by
  match ts with
  | [] => exact .pure _
  | .leaf _ :: rest =>
    rw [arguments]
    · exact only_arguments rest
    all_goals simp
  | .node kind place children :: rest =>
    by_cases hk : kind = .value
    · subst hk
      rw [arguments]
      refine .bind (only_row none children) fun items => ?_
      split
      · exact .pure _
      · exact .pure _
    · rw [arguments]
      · exact only_arguments rest
      all_goals simp [hk]

theorem only_row (pending : Option Separator) (ts : List Tree) :
    (r.row pending ts).Only r.source [.invalidColor] := by
  match ts with
  | [] => exact .pure _
  | .leaf index :: rest =>
    rw [row]
    exact only_row _ rest
  | .node kind place children :: rest =>
    rw [row]
    refine .bind (only_term _) fun v => ?_
    split
    · exact only_row pending rest
    · exact .bind (only_row none rest) fun _ => .pure _

end

theorem only_value (t : Tree) : (r.value t).Only r.source [.invalidColor] := by
  refine .bind (r.only_row none t.children) fun items => ?_
  split
  · exact .pure _
  · exact .pure _

/-! ## Declarations and media queries -/

theorem only_declarations (block : Tree) : (r.declarations block).Only r.source [.invalidColor] := by
  refine .collect? (fun t => ?_) _
  unfold declaration
  split
  · exact .bind (r.only_value _) fun _ => .pure _
  · exact .pure _

theorem only_mediaFeature (t : Tree) : (r.mediaFeature t).Only r.source [.invalidColor] := by
  unfold mediaFeature
  split
  · exact .pure _
  · split
    · exact .pure _
    · exact .bind (r.only_value _) fun _ => .pure _

theorem only_mediaQueries (t : Tree) : (r.mediaQueries t).Only r.source [.invalidColor] := by
  unfold mediaQueries
  split
  · exact .pure _
  · exact .collect (fun _ => .bind (.collect? r.only_mediaFeature _) fun _ => .pure _) _

/-! ## Statements -/

variable (options : Options)

theorem only_resolve (known : List Namespace) (nsPrefix : Option String) (hasElement : Bool)
    (span : Span) : (r.resolve options known nsPrefix hasElement span).Only r.source [.unknownNamespace] := by
  unfold resolve
  split
  · split
    · exact .pure _
    · split
      · exact .pure _
      · exact .bind (.report (List.mem_singleton_self _) rfl) fun _ => .pure _
  · split
    · exact .pure _
    · exact .pure _

theorem only_selectors (known : List Namespace) (t : Tree) :
    (r.selectors options known t).Only r.source [.unknownNamespace] := by
  have compounds (t : Tree) : (r.compound options known t).Only r.source [.unknownNamespace] :=
    .bind (r.only_resolve options known _ _ _) fun _ => .pure _
  refine .collect? (fun t => .bind (.collect compounds _) fun found => ?_) _
  split
  · exact .pure _
  · exact .pure _

theorem only_rule (known : List Namespace) (media : List MediaQuery) (t : Tree) :
    (r.rule options known media t).Only r.source [.unknownNamespace, .invalidColor] := by
  unfold rule
  split
  · exact .pure _
  · refine .bind ((r.only_selectors options known _).mono (by simp)) fun selectors => ?_
    split
    · exact .pure _
    · dsimp only
      split
      · exact .pure _
      · exact .bind ((r.only_declarations _).mono (by simp)) fun _ => .pure _

theorem only_rules (known : List Namespace) (media : List MediaQuery) (ts : List Tree) :
    (r.rules options known media ts).Only r.source [.unknownNamespace, .invalidColor, .invalidAtRule] := by
  induction ts with
  | nil => exact .pure _
  | cons t ts ih =>
    rw [rules]
    split
    · exact .bind ((r.only_rule options known media t).mono (by simp)) fun _ =>
        .bind ih fun _ => .pure _
    · exact .bind (.report (by simp) rfl) fun _ => ih
    · exact ih

theorem only_descriptors (kept ds : List Declaration) :
    (r.descriptors kept ds).Only r.source [.duplicateDescriptor] := by
  induction ds generalizing kept with
  | nil => exact .pure _
  | cons d ds ih =>
    rw [descriptors]
    split
    · exact .bind (.report (List.mem_singleton_self _) rfl) fun _ => ih _
    · exact ih _

theorem only_fontFace (t : Tree) :
    (r.fontFace t).Only r.source [.invalidColor, .duplicateDescriptor] := by
  have face (ds : List Declaration) : (do return ⟨← r.descriptors [] ds, r.spanOf t⟩ :
      Noted FontFace).Only r.source [.invalidColor, .duplicateDescriptor] :=
    .bind ((r.only_descriptors [] ds).mono (by simp)) fun _ => .pure _
  unfold fontFace
  dsimp only
  split
  · exact .bind (.pure []) face
  · exact .bind ((r.only_declarations _).mono (by simp)) face

end Reading

/-! ## Documents -/

/-- The problems among what was noted are complete, and of some kinds. -/
def Draft.Only (source : String) (kinds : List ProblemKind) (d : Draft) : Prop :=
  ∀ p ∈ d.problems, p.kind ∈ kinds ∧ p.IsComplete source

theorem Draft.problems_append (a b : Draft) : (a ++ b).problems = a.problems ++ b.problems :=
  List.filterMap_append

/-- The problems of something that is read become notes. -/
theorem Draft.problems_ofProblems {ps : List Problem} {d : Draft}
    (hd : d.notes = ps.map .problem) : d.problems = ps := by
  rw [Draft.problems, hd, List.filterMap_map]
  exact List.filterMap_some

namespace Draft.Only

variable {source : String} {kinds others : List ProblemKind}

theorem kind_mem {d : Draft} (h : d.Only source kinds) : ∀ p ∈ d.problems, p.kind ∈ kinds :=
  fun p hp => (h p hp).1

theorem nil : Draft.Only source kinds {} := fun _ h => absurd h List.not_mem_nil

theorem append {a b : Draft} (ha : a.Only source kinds) (hb : b.Only source kinds) :
    (a ++ b).Only source kinds := by
  intro p hp
  rw [Draft.problems_append] at hp
  rcases List.mem_append.1 hp with hp | hp
  · exact ha p hp
  · exact hb p hp

theorem mono {d : Draft} (h : d.Only source kinds) (hs : kinds ⊆ others) : d.Only source others :=
  fun p hp => ⟨hs (h p hp).1, (h p hp).2⟩

theorem ofNoted {α : Type} {x : Noted α} (h : x.Only source kinds) {d : Draft}
    (hd : d.notes = x.problems.map .problem) : d.Only source kinds := by
  intro p hp
  rw [Draft.problems_ofProblems hd] at hp
  exact h p hp

end Draft.Only

namespace Reading

variable (r : Reading) (options : Options)

theorem only_namespaceRule (known : List Namespace) (t : Tree) :
    (r.namespaceRule known t).Only r.source [.duplicateNamespace] := by
  unfold namespaceRule
  split
  · exact .nil
  · dsimp only
    split
    · exact fun _ hp => List.mem_singleton.1 hp ▸
        ⟨List.mem_singleton_self _, Problem.isComplete_ofParams rfl⟩
    · exact fun _ hp => absurd hp List.not_mem_nil

theorem only_mediaRule (known : List Namespace) (t : Tree) :
    (r.mediaRule options known t).Only r.source [.unknownNamespace, .invalidColor, .invalidAtRule] :=
  .bind ((r.only_mediaQueries t).mono (by simp)) fun media =>
    r.only_rules options known media t.nodes

/-- The kinds of problems that a document is read with. -/
def problemKinds : List ProblemKind :=
  [.duplicateNamespace, .unknownNamespace, .invalidColor, .invalidAtRule, .duplicateDescriptor]

theorem only_statement (known : List Namespace) (t : Tree) :
    (r.statement options known t).Only r.source problemKinds := by
  unfold statement
  split
  · exact (r.only_namespaceRule known t).mono (by simp [problemKinds])
  · exact .ofNoted ((r.only_fontFace t).mono (by simp [problemKinds])) rfl
  · exact .ofNoted ((r.only_mediaRule options known t).mono (by simp [problemKinds])) rfl
  · exact .ofNoted ((r.only_rules options known [] [t]).mono (by simp [problemKinds])) rfl
  · exact .ofNoted ((r.only_rules options known [] [t]).mono (by simp [problemKinds])) rfl
  · exact .nil

theorem only_statements (known : List Namespace) (ts : List Tree) :
    (r.statements options known ts).Only r.source problemKinds := by
  induction ts generalizing known with
  | nil => exact .nil
  | cons t ts ih =>
    rw [statements]
    exact (r.only_statement options known t).append (ih _)

end Reading

/-- All problems of a document are problems of meaning. -/
theorem buildDocument_class (source : String) (tokens : List Token) (tree : Tree)
    (options : Options) :
    AllOfClass .semantic (buildDocument source tokens tree options).problems := by
  intro p hp
  have hk := (Reading.only_statements ⟨source, tokens⟩ options [] tree.nodes p hp).1
  simp only [Reading.problemKinds, List.mem_cons, List.not_mem_nil, or_false] at hk
  rcases hk with h | h | h | h | h <;> rw [h] <;> rfl

theorem buildDocument_isComplete (source : String) (tokens : List Token) (tree : Tree)
    (options : Options) :
    ∀ p ∈ (buildDocument source tokens tree options).problems, p.IsComplete source :=
  fun p hp => (Reading.only_statements ⟨source, tokens⟩ options [] tree.nodes p hp).2

end Stylesheet

import Stylesheet.Proofs.Likeness.Children
import Stylesheet.Proofs.Likeness.Respaced
import Stylesheet.Proofs.Written.Document
import Stylesheet.Reading.Document

/-!
# Reading alike trees

What is read from alike trees over respaced tokens is the same, places and the argument texts of
pseudo-classes aside, and so are the problems found on the way, in the same order (`Noted.Like`). Here
are selectors and values; what is made of them follows in `Stylesheet.Proofs.Reading.Respaced`.
-/

namespace Stylesheet

/-! ## What is left without places -/

/-- A condition without the text of its argument. -/
def Condition.unplaced : Condition → Condition
  | .pseudo name argument element => .pseudo name (argument.map fun _ => "") element
  | c => c

theorem Declaration.name_of_bare {d e : Declaration} (h : d.bare = e.bare) : d.name = e.name := by
  have hname := congrArg Declaration.name h
  exact hname

def Compound.unplaced (c : Compound) : Compound :=
  { c with conditions := c.conditions.map Condition.unplaced }

def Selector.unplaced (s : Selector) : Selector :=
  { s with compounds := s.compounds.map Compound.unplaced, span := .nowhere }

def Rule.unplaced (r : Rule) : Rule :=
  { r with
    selectors := r.selectors.map Selector.unplaced
    declarations := r.declarations.map Declaration.bare
    span := .nowhere }

/-- A document without the places of its parts, and without the arguments of pseudo-classes, which are
    kept as they were written. -/
def Document.unplaced (d : Document) : Document where
  sourceName := d.sourceName
  span := .nowhere
  namespaces := d.namespaces.map Namespace.bare
  fontFaces := d.fontFaces.map FontFace.bare
  rules := d.rules.map Rule.unplaced

def Problem.unplaced (p : Problem) : Problem := { p with span := .nowhere }

/-! ## Readings -/

namespace Noted

variable {α α' β β' : Type}

/-- Related results, and the same problems, places aside. -/
structure Like (R : α → β → Prop) (x : Noted α) (y : Noted β) : Prop where
  result : R x.result y.result
  problems : x.problems.map Problem.unplaced = y.problems.map Problem.unplaced

namespace Like

variable {R : α → β → Prop} {S : α' → β' → Prop}

theorem pure {a : α} {b : β} (h : R a b) : Like R (pure a) (pure b) := ⟨h, rfl⟩

theorem bind {x : Noted α} {y : Noted β} {f : α → Noted α'} {g : β → Noted β'} (h : Like R x y)
    (hf : ∀ a b, R a b → Like S (f a) (g b)) : Like S (x >>= f) (y >>= g) := by
  have hr := hf _ _ h.result
  refine ⟨hr.result, ?_⟩
  rw [bind_problems, bind_problems, List.map_append, List.map_append, h.problems, hr.problems]

theorem report {p q : Problem} (h : p.unplaced = q.unplaced) :
    Like (fun _ _ => True) (report p) (report q) :=
  ⟨trivial, congrArg (fun p => [p]) h⟩

theorem collect {f : α → Noted α'} {g : β → Noted β'} {l : List α} {l' : List β}
    (h : List.Forall₂ R l l') (hf : ∀ a b, R a b → Like S (f a) (g b)) :
    Like (List.Forall₂ S) (collect f l) (collect g l') := by
  induction h with
  | nil => exact pure .nil
  | cons h _ ih => exact (hf _ _ h).bind fun _ _ hb => ih.bind fun _ _ hbs => pure (.cons hb hbs)

theorem collect? {f : α → Noted (Option α')} {g : β → Noted (Option β')} {l : List α} {l' : List β}
    (h : List.Forall₂ R l l') (hf : ∀ a b, R a b → Like (Option.Rel S) (f a) (g b)) :
    Like (List.Forall₂ S) (collect? f l) (collect? g l') :=
  (collect h hf).bind fun _ _ hl => pure (List.rel_filterMap (fun _ _ h => h) hl)

end Like

end Noted

namespace Reading

open Likeness

/-- How the tokens of two readings are related. -/
abbrev likeness (r r' : Reading) : Likeness := respacing r.tokens r'.tokens

variable {r r' : Reading}

/-! ## Tokens -/

theorem kind?_like {i j : Nat} (h : (likeness r r').index i j) :
    r.kind? i = r'.kind? j := by
  have hk := congrArg (Option.map Token.kind) h
  rwa [Option.map_map, Option.map_map] at hk

theorem ident?_like {i j : Nat} (h : (likeness r r').index i j) :
    r.ident? i = r'.ident? j := by
  rw [ident?, ident?, kind?_like h]

theorem problem_like (hs : r.source = r'.source) (kind : ProblemKind) (span span' : Span)
    (params : List (String × String)) :
    (r.problem kind span params).unplaced = (r'.problem kind span' params).unplaced := by
  rw [problem, problem, hs]
  rfl

/-! ## Selectors -/

section

variable {t u : Tree}

theorem kind?_first_like (h : (likeness r r').TreeLike t u) :
    r.kind? t.first = r'.kind? u.first := kind?_like h.first

theorem classOf?_like (h : (likeness r r').NodeLike .classSelector t u) :
    r.classOf? t = r'.classOf? u := by
  have htokens := h.tokens rfl
  rw [classOf?, classOf?]
  generalize t.tokens = is at htokens
  generalize u.tokens = js at htokens
  cases htokens with
  | nil => rfl
  | cons _ htokens =>
    cases htokens with
    | nil => rfl
    | cons hi _ => exact congrArg _ (ident?_like hi)

theorem attributeOf?_like (h : (likeness r r').NodeLike .attributeSelector t u) :
    r.attributeOf? t = r'.attributeOf? u := by
  rw [attributeOf?, attributeOf?, filterMap_eq_of_forall₂ (h.tokens rfl) fun _ _ => kind?_like]

/-- What a pseudo-class is depends on the first token behind the colons. -/
theorem pseudoOfName?_like (element : Bool) {is js : List Nat}
    (h : (likeness r r').LeavesLike is js) :
    (r.pseudoOfName? element is).map Condition.unplaced =
      (r'.pseudoOfName? element js).map Condition.unplaced := by
  cases is with
  | nil =>
    cases js with
    | nil => rfl
    | cons => cases h.isEmpty_eq
  | cons i is =>
    cases js with
    | nil => cases h.isEmpty_eq
    | cons j js =>
      rw [pseudoOfName?, pseudoOfName?, kind?_like h.head]
      generalize r.pseudoArgument is = argument
      generalize r'.pseudoArgument js = argument'
      split <;> rfl

theorem pseudoOf?_eq {i k : Nat} {is : List Nat} (h : t.tokens = i :: k :: is) :
    r.pseudoOf? t = if r.kind? k = some .colon then r.pseudoOfName? true is
      else r.pseudoOfName? false (k :: is) := by
  rw [pseudoOf?, h]
  by_cases hk : r.kind? k = some .colon
  · simp [hk]
  · simp [hk, beq_eq_false_iff_ne.2 hk]

theorem pseudoOf?_like (h : (likeness r r').NodeLike .pseudoSelector t u) :
    (r.pseudoOf? t).map Condition.unplaced = (r'.pseudoOf? u).map Condition.unplaced := by
  obtain ⟨e, e'⟩ | ⟨i, j, is, js, e, e', hij, h⟩ := h.pseudo_tokens
  · rw [pseudoOf?, pseudoOf?, e, e']
    rfl
  · cases h with
    | nil =>
      rw [pseudoOf?, pseudoOf?, e, e']
      rfl
    | @cons k l is js hkl h =>
      rw [pseudoOf?_eq e, pseudoOf?_eq e', kind?_like hkl]
      split
      · exact pseudoOfName?_like true h
      · exact pseudoOfName?_like false (.cons hkl h)
    | @run is js is' js' hrun h =>
      -- a blank is no second colon
      have hall : (likeness r r').LeavesLike (is ++ is') (js ++ js') := .run hrun h
      obtain ⟨k, is, rfl, -⟩ := hrun.1.head
      obtain ⟨l, js, rfl, -⟩ := hrun.2.head
      have hk : r.kind? k = some .whitespace := hrun.1.2 k List.mem_cons_self
      have hl : r'.kind? l = some .whitespace := hrun.2.2 l List.mem_cons_self
      rw [pseudoOf?_eq e, pseudoOf?_eq e', hk, hl, if_neg (by decide), if_neg (by decide)]
      exact pseudoOfName?_like false hall

theorem conditionOf?_like (h : (likeness r r').TreeLike t u) :
    (r.conditionOf? t).map Condition.unplaced = (r'.conditionOf? u).map Condition.unplaced := by
  rw [conditionOf?, conditionOf?, ← h.kind?_eq]
  split
  · rw [idOf?, idOf?, kind?_first_like h]
  · rename_i hk
    rw [classOf?_like ⟨hk, h⟩]
  · rename_i hk
    rw [attributeOf?_like ⟨hk, h⟩]
  · rename_i hk
    exact pseudoOf?_like ⟨hk, h⟩
  · rfl

end

/-! ## Namespaces -/

/-- Namespaces that differ only in their places are found by the same keys. -/
theorem find?_like {known known' : List Namespace}
    (h : known.map Namespace.bare = known'.map Namespace.bare) (key : String) :
    (Namespace.find? known key).map Namespace.bare =
      (Namespace.find? known' key).map Namespace.bare := by
  have hf (known : List Namespace) : (Namespace.find? known key).map Namespace.bare =
      Namespace.find? (known.map Namespace.bare) key := by
    rw [Namespace.find?, Namespace.find?, List.find?_map]
    rfl
  rw [hf, hf, h]

theorem resolve_like (hs : r.source = r'.source) (options : Options) {known known' : List Namespace}
    (h : known.map Namespace.bare = known'.map Namespace.bare) (nsPrefix : Option String)
    (hasElement : Bool) (span span' : Span) :
    Noted.Like Eq (r.resolve options known nsPrefix hasElement span)
      (r'.resolve options known' nsPrefix hasElement span') := by
  unfold resolve
  split
  · rename_i p
    have hf := find?_like h p
    split
    · exact .pure rfl
    · cases e : Namespace.find? known p with
      | none =>
        rw [e, Option.map_none, eq_comm, Option.map_eq_none_iff] at hf
        rw [hf]
        exact .bind (.report (problem_like hs _ _ _ _)) fun _ _ _ => .pure rfl
      | some n =>
        rw [e, Option.map_some, eq_comm, Option.map_eq_some_iff] at hf
        obtain ⟨n', e', hn⟩ := hf
        rw [e']
        exact .pure (congrArg some (congrArg Namespace.address hn).symm)
  · split
    · have ha := congrArg (Option.map Namespace.address) (find?_like h "")
      rw [Option.map_map, Option.map_map] at ha
      exact .pure ha
    · exact .pure rfl

section

variable (hs : r.source = r'.source) (options : Options) {known known' : List Namespace}
  (hknown : known.map Namespace.bare = known'.map Namespace.bare) {t u : Tree}

include hs hknown

theorem compound_like (h : (likeness r r').TreeLike t u) :
    Noted.Like (fun c d => c.unplaced = d.unplaced) (r.compound options known t)
      (r'.compound options known' u) := by
  have hp : (t.child? .namespacePrefix).bind r.prefixOf? =
      (u.child? .namespacePrefix).bind r'.prefixOf? := by
    have hc := h.child? .namespacePrefix
    generalize t.child? .namespacePrefix = c at hc
    generalize u.child? .namespacePrefix = c' at hc
    cases hc with
    | none => rfl
    | some hc => rw [Option.bind_some, Option.bind_some, prefixOf?, prefixOf?, kind?_first_like hc.2]
  have he : (t.child? .elementName).bind r.elementOf? =
      (u.child? .elementName).bind r'.elementOf? := by
    have hc := h.child? .elementName
    generalize t.child? .elementName = c at hc
    generalize u.child? .elementName = c' at hc
    cases hc with
    | none => rfl
    | some hc => rw [Option.bind_some, Option.bind_some, elementOf?, elementOf?, kind?_first_like hc.2]
  have hc : (t.nodes.filterMap r.conditionOf?).map Condition.unplaced =
      (u.nodes.filterMap r'.conditionOf?).map Condition.unplaced := by
    rw [List.map_filterMap, List.map_filterMap]
    exact filterMap_eq_of_forall₂ h.nodes fun _ _ => conditionOf?_like
  unfold compound
  dsimp only
  rw [hp, he]
  refine .bind (resolve_like hs options hknown _ _ _ _) fun address address' ha => .pure ?_
  rw [Compound.unplaced, Compound.unplaced, ha, hc]

theorem selector_like (h : (likeness r r').TreeLike t u) :
    Noted.Like (Option.Rel fun s s' => s.unplaced = s'.unplaced) (r.selector options known t)
      (r'.selector options known' u) := by
  have hk : (t.nodesOf .combinator).map r.combinator = (u.nodesOf .combinator).map r'.combinator :=
    map_eq_of_forall₂ (h.nodesOf .combinator) fun _ _ hc => by
      rw [combinator, combinator, kind?_first_like hc.2]
  refine .bind (.collect (h.nodesOf .simpleSelector) fun _ _ hc =>
    compound_like hs options hknown hc.2) fun cs ds hcs => ?_
  cases hcs with
  | nil => exact .pure .none
  | @cons c d cs ds hc hcs =>
    refine .pure (.some ?_)
    have hall := map_eq_of_forall₂ (.cons hc hcs : List.Forall₂ _ (c :: cs) (d :: ds))
      fun _ _ h => h
    rw [Selector.unplaced, Selector.unplaced, hall, hk]

theorem selectors_like (h : (likeness r r').TreeLike t u) :
    Noted.Like (List.Forall₂ fun s s' => s.unplaced = s'.unplaced) (r.selectors options known t)
      (r'.selectors options known' u) :=
  .collect? (h.nodesOf .selector) fun _ _ hc => selector_like hs options hknown hc.2

end

/-! ## Values -/

section

variable (hs : r.source = r'.source)

include hs

theorem hashValue_like {t u : Token} (ht : t.text = u.text) (digits : String) :
    Noted.Like Eq (r.hashValue t digits) (r'.hashValue u digits) := by
  unfold hashValue
  split
  · exact .pure rfl
  · rw [ht]
    exact .bind (.report (problem_like hs _ _ _ _)) fun _ _ _ => .pure rfl

theorem literal_like {i j : Nat} (h : (likeness r r').index i j) :
    Noted.Like Eq (r.literal i) (r'.literal j) := by
  have h : r.tokens[i]?.map Token.unplaced = r'.tokens[j]?.map Token.unplaced := h
  unfold literal
  cases e : r.tokens[i]? with
  | none =>
    rw [e, Option.map_none, eq_comm, Option.map_eq_none_iff] at h
    rw [h]
    exact .pure rfl
  | some t =>
    rw [e, Option.map_some, eq_comm, Option.map_eq_some_iff] at h
    obtain ⟨u, e', hu⟩ := h
    have hk : u.unplaced.kind = t.unplaced.kind := congrArg Token.kind hu
    rw [Token.unplaced_kind, Token.unplaced_kind] at hk
    rw [e']
    dsimp only
    rw [hk]
    split
    any_goals exact .pure rfl
    rename_i digits isId ht
    -- a hash is no blank, so its text is kept
    have htext : t.text = u.text := by
      have hw := congrArg Token.text hu
      rw [Token.unplaced_text (by simp [hk, ht]), Token.unplaced_text (by simp [ht])] at hw
      exact hw.symm
    exact .bind (hashValue_like hs htext digits) fun _ _ hv => .pure (congrArg some hv)

omit hs in
mutual

theorem term_like (hs : r.source = r'.source) (t u : Tree) (h : (likeness r r').TreeLike t u) :
    Noted.Like Eq (r.term t) (r'.term u) := by
  have hf := h.first
  match t, u, h with
  | .leaf i, .leaf j, _ =>
    rw [term, term]
    · exact .pure rfl
    all_goals simp
  | .node kind place ts, .node _ place' us, .node _ hp hc =>
    cases kind with
    | term =>
      rw [term, term]
      exact literal_like hs hf
    | functionCall =>
      rw [term, term, functionName?, functionName?, kind?_like hf]
      split
      · exact .pure rfl
      · exact .bind (arguments_like hs ts us hc) fun _ _ ha => .pure (ha ▸ rfl)
    | namedArgument =>
      rw [term, term, ident?_like hf]
      split
      · exact .pure rfl
      · exact .bind (firstTerm_like hs ts us hc) fun _ _ hv => .pure (hv ▸ rfl)
    | _ =>
      rw [term, term]
      · exact .pure rfl
      all_goals simp
  | .node _ _ _, .node _ _ _, .skipped _ _ =>
    rw [term, term]
    · exact .pure rfl
    all_goals simp
  | .node kind _ _, .node _ _ _, .headed hk _ _ _ =>
    rw [term, term]
    · exact .pure rfl
    all_goals rintro _ _ ⟨rfl, rfl, rfl⟩; contradiction
termination_by structural t

theorem firstTerm_like (hs : r.source = r'.source) (ts us : List Tree)
    (h : List.Forall₂ (likeness r r').TreeLike ts us) :
    Noted.Like Eq (r.firstTerm ts) (r'.firstTerm us) := by
  match ts, us, h with
  | [], [], _ => exact .pure rfl
  | .leaf _ :: rest, .leaf _ :: rest', .cons _ h =>
    rw [firstTerm, firstTerm]
    exact firstTerm_like hs rest rest' h
  | .node kind place children :: _, .node kind' place' children' :: _, .cons h _ =>
    rw [firstTerm, firstTerm]
    exact term_like hs _ _ h
termination_by structural ts

theorem arguments_like (hs : r.source = r'.source) (ts us : List Tree)
    (h : List.Forall₂ (likeness r r').TreeLike ts us) :
    Noted.Like Eq (r.arguments ts) (r'.arguments us) := by
  match ts, us, h with
  | [], [], _ => exact .pure rfl
  | .leaf _ :: rest, .leaf _ :: rest', .cons _ h =>
    rw [arguments, arguments]
    · exact arguments_like hs rest rest' h
    all_goals simp
  | .node kind place children :: rest, .node kind' place' children' :: rest', .cons ht h =>
    have hk : some kind = some kind' := ht.kind?_eq
    cases hk
    by_cases hk : kind = .value
    · subst hk
      have hc := NodeLike.children ⟨rfl, ht⟩ rfl
      rw [arguments, arguments]
      refine .bind (row_like hs none children children' hc) fun row row' hrow => ?_
      rw [hrow]
      split <;> exact .pure rfl
    · rw [arguments, arguments]
      · exact arguments_like hs rest rest' h
      all_goals simp [hk]
termination_by structural ts

theorem row_like (hs : r.source = r'.source) (pending : Option Separator) (ts us : List Tree)
    (h : List.Forall₂ (likeness r r').TreeLike ts us) :
    Noted.Like Eq (r.row pending ts) (r'.row pending us) := by
  match ts, us, h with
  | [], [], _ => exact .pure rfl
  | .leaf i :: rest, .leaf j :: rest', .cons (.leaf hij) h =>
    rw [row, row, separator?, separator?, kind?_like hij]
    exact row_like hs _ rest rest' h
  | .node kind place children :: rest, .node kind' place' children' :: rest', .cons ht h =>
    rw [row, row]
    refine .bind (term_like hs _ _ ht) fun v v' hv => ?_
    rw [hv]
    split
    · exact row_like hs pending rest rest' h
    · exact .bind (row_like hs none rest rest' h) fun _ _ hmore => .pure (hmore ▸ rfl)
termination_by structural ts

end

variable {t u : Tree}

theorem value_like (h : (likeness r r').NodeLike .value t u) :
    Noted.Like Eq (r.value t) (r'.value u) := by
  rw [value, value]
  refine .bind (row_like hs none _ _ (h.children rfl)) fun row row' hrow => ?_
  rw [hrow]
  split <;> exact .pure rfl

end

end Reading

end Stylesheet

import Stylesheet.Proofs.Problem.Outcome
import Stylesheet.Proofs.Written.Document

/-!
# The default namespace

Whether a type selector without a prefix belongs to the default namespace changes nothing else. What is
read with the option off is what is read with any options, less the addresses of compounds without a
prefix (`Reading.statements_unqualified`), problem by problem. So two parses that differ in the option
alone report the same, and their documents differ in these addresses at most
(`Stream.parseInto_qualified`).
-/

namespace Stylesheet

/-- A compound without what the default namespace gives it. -/
def Compound.unqualified (c : Compound) : Compound :=
  if c.nsPrefix.isNone then { c with nsAddress := none } else c

def Selector.unqualified (s : Selector) : Selector :=
  { s with compounds := s.compounds.map Compound.unqualified }

def Rule.unqualified (r : Rule) : Rule :=
  { r with selectors := r.selectors.map Selector.unqualified }

/-- A document whose compounds without a prefix are in no namespace. -/
def Document.unqualified (d : Document) : Document :=
  { d with rules := d.rules.map Rule.unqualified }

/-- The compounds of all rules. -/
def Document.compounds (d : Document) : List Compound :=
  d.rules.flatMap fun r => r.selectors.flatMap Selector.compounds

/-- The same options, with type selectors left as they are. -/
def Options.unqualifying (options : Options) : Options :=
  { options with qualifiedTypeSelectors := false }

/-! ## Erasing twice, and rendering -/

theorem Compound.nsAddress_unqualified {c : Compound} (h : c.unqualified.nsPrefix = none) :
    c.unqualified.nsAddress = none := by
  unfold unqualified at h ⊢
  split
  · rfl
  · rename_i hp
    rw [if_neg hp] at h
    rw [h] at hp
    contradiction

theorem Compound.bare_unqualified (c : Compound) : c.unqualified.bare = c.bare := by
  unfold unqualified
  split
  · rfl
  · rfl

theorem Document.bare_unqualified (d : Document) : d.unqualified.bare = d.bare := by
  have selector (s : Selector) : s.unqualified.bare = s.bare := by
    simp only [Selector.unqualified, Selector.bare, List.map_map]
    refine congrArg (fun cs => (⟨cs, s.combinators, .nowhere⟩ : Selector)) ?_
    exact List.map_congr_left fun c _ => c.bare_unqualified
  have rule (r : Rule) : r.unqualified.bare = r.bare := by
    simp only [Rule.unqualified, Rule.bare, List.map_map]
    refine congrArg (fun ss => (⟨ss, _, r.media, .nowhere⟩ : Rule)) ?_
    exact List.map_congr_left fun s _ => selector s
  simp only [unqualified, bare, List.map_map]
  refine congrArg (fun rs => (⟨"", .nowhere, _, _, rs⟩ : Document)) ?_
  exact List.map_congr_left fun r _ => rule r

/-- The addresses of namespaces are not rendered. -/
theorem Document.render_unqualified (d : Document) : d.unqualified.render = d.render :=
  calc d.unqualified.render = d.unqualified.bare.render := d.unqualified.render_bare.symm
    _ = d.bare.render := by rw [bare_unqualified]
    _ = d.render := d.render_bare

theorem Document.mem_compounds_unqualified {d : Document} {c : Compound}
    (h : c ∈ d.unqualified.compounds) : ∃ c' : Compound, c = c'.unqualified := by
  obtain ⟨r, hr, h⟩ := List.mem_flatMap.1 h
  obtain ⟨r', -, rfl⟩ := List.mem_map.1 hr
  obtain ⟨s, hs, hc⟩ := List.mem_flatMap.1 h
  obtain ⟨s', -, rfl⟩ := List.mem_map.1 hs
  obtain ⟨c', -, rfl⟩ := List.mem_map.1 hc
  exact ⟨c', rfl⟩

/-! ## Reading -/

namespace Noted

variable {α α' β β' : Type}

/-- Something else made of what was read, with the same problems. -/
def map (f : α → β) (x : Noted α) : Noted β := ⟨f x.result, x.problems⟩

/-- What goes on from something read goes on in the same way from what is made of it. -/
theorem map_bind_eq {x : Noted α} {y : Noted α'} {f : α → Noted β} {f' : α' → Noted β'} {g : α → α'}
    {k : β → β'} (hx : x.map g = y) (hf : (f x.result).map k = f' (g x.result)) :
    (x >>= f).map k = y >>= f' := by
  subst hx
  show _ = Noted.mk _ _
  rw [show (x.map g).result = g x.result from rfl, ← hf]
  rfl

theorem map_collect {f : α → Noted β} {f' : α → Noted β'} {k : β → β'} {l : List α}
    (h : ∀ a ∈ l, (f a).map k = f' a) : (collect f l).map (List.map k) = collect f' l := by
  induction l with
  | nil => rfl
  | cons a l ih =>
    obtain ⟨ha, hl⟩ := List.forall_mem_cons.1 h
    rw [collect, collect]
    exact map_bind_eq ha (map_bind_eq (ih hl) rfl)

theorem map_collect? {f : α → Noted (Option β)} {f' : α → Noted (Option β')} {k : β → β'}
    {l : List α} (h : ∀ a ∈ l, (f a).map (Option.map k) = f' a) :
    (collect? f l).map (List.map k) = collect? f' l := by
  rw [collect?, collect?]
  refine map_bind_eq (map_collect h) ?_
  show pure (((collect f l).result.filterMap id).map k) = _
  rw [List.map_filterMap, List.filterMap_map]
  rfl

end Noted

namespace Reading

variable {r : Reading} (options : Options) (known : List Namespace)

theorem resolve_unqualifying (nsPrefix : Option String) (hasElement : Bool) (span : Span) :
    r.resolve options.unqualifying known nsPrefix hasElement span =
      (r.resolve options known nsPrefix hasElement span).map fun address =>
        if nsPrefix.isNone then none else address := by
  cases nsPrefix with
  | some p => rfl
  | none =>
    have hoff : (hasElement && options.unqualifying.qualifiedTypeSelectors) = false := by
      rw [Options.unqualifying, Bool.and_false]
    rw [resolve, resolve, if_neg (by rw [hoff]; decide)]
    show _ = Noted.map (fun _ => none) _
    split
    · rfl
    · rfl

theorem compound_unqualified (t : Tree) :
    (r.compound options known t).map Compound.unqualified =
      r.compound options.unqualifying known t := by
  rw [compound, compound, resolve_unqualifying]
  refine Noted.map_bind_eq rfl ?_
  show pure (Compound.unqualified _) = _
  rw [Compound.unqualified]
  cases (t.child? .namespacePrefix).bind r.prefixOf? with
  | none => rfl
  | some p => rfl

theorem selector_unqualified (t : Tree) :
    (r.selector options known t).map (Option.map Selector.unqualified) =
      r.selector options.unqualifying known t := by
  refine Noted.map_bind_eq (Noted.map_collect fun u _ => compound_unqualified options known u) ?_
  rw [List.isEmpty_map]
  split
  · rfl
  · rfl

theorem selectors_unqualified (t : Tree) :
    (r.selectors options known t).map (List.map Selector.unqualified) =
      r.selectors options.unqualifying known t :=
  Noted.map_collect? fun u _ => selector_unqualified options known u

theorem rule_unqualified (media : List MediaQuery) (t : Tree) :
    (r.rule options known media t).map (Option.map Rule.unqualified) =
      r.rule options.unqualifying known media t := by
  unfold rule
  split
  · rfl
  · rename_i list _
    refine Noted.map_bind_eq (selectors_unqualified options known list) ?_
    rw [List.isEmpty_map]
    split
    · rfl
    · split
      · rfl
      · rfl

theorem rules_unqualified (media : List MediaQuery) (ts : List Tree) :
    (r.rules options known media ts).map (List.map Rule.unqualified) =
      r.rules options.unqualifying known media ts := by
  induction ts with
  | nil => rfl
  | cons t ts ih =>
    rw [rules, rules]
    split
    · refine Noted.map_bind_eq (rule_unqualified options known media t) (Noted.map_bind_eq ih ?_)
      show pure (((r.rule options known media t).result.toList ++ _).map Rule.unqualified) = _
      rw [List.map_append, Option.toList_map]
    · exact Noted.map_bind_eq (g := id) rfl ih
    · exact ih

theorem mediaRule_unqualified (t : Tree) :
    (r.mediaRule options known t).map (List.map Rule.unqualified) =
      r.mediaRule options.unqualifying known t :=
  Noted.map_bind_eq (g := id) rfl (rules_unqualified options known _ t.nodes)

end Reading

/-- A draft with the same namespaces, font faces and notes. -/
def Draft.unqualified (d : Draft) : Draft := { d with rules := d.rules.map Rule.unqualified }

theorem Draft.unqualified_append (a b : Draft) :
    (a ++ b).unqualified = a.unqualified ++ b.unqualified := by
  show Draft.mk _ _ ((a.rules ++ b.rules).map Rule.unqualified) _ = _
  rw [List.map_append]
  rfl

namespace Reading

variable {r : Reading} (options : Options) (known : List Namespace)

theorem statement_unqualified (t : Tree) :
    (r.statement options known t).unqualified = r.statement options.unqualifying known t := by
  have ofRules {x y : Noted (List Rule)} (h : x.map (List.map Rule.unqualified) = y) :
      Draft.unqualified { rules := x.result, notes := x.problems.map .problem } =
        { rules := y.result, notes := y.problems.map .problem } := by
    subst h
    rfl
  unfold statement
  split
  · unfold namespaceRule
    split
    · rfl
    · dsimp only
      split
      · rfl
      · rfl
  · rfl
  · exact ofRules (mediaRule_unqualified options known t)
  · exact ofRules (rules_unqualified options known [] [t])
  · exact ofRules (rules_unqualified options known [] [t])
  · rfl

/-- What statements add with the option off is what they add with any options, less the addresses that
    the default namespace gives. -/
theorem statements_unqualified (ts : List Tree) :
    (r.statements options known ts).unqualified = r.statements options.unqualifying known ts := by
  induction ts generalizing known with
  | nil => rfl
  | cons t ts ih =>
    have hn : (r.statement options.unqualifying known t).namespaces =
        (r.statement options known t).namespaces := by
      rw [← statement_unqualified]
      rfl
    rw [statements, statements, Draft.unqualified_append, statement_unqualified, ih, hn]

end Reading

/-! ## Parsing -/

theorem buildDocument_unqualified (source : String) (tokens : List Token) (tree : Tree)
    (options : Options) :
    buildDocument source tokens tree options.unqualifying =
      ⟨(buildDocument source tokens tree options).document.unqualified,
        (buildDocument source tokens tree options).notes⟩ := by
  rw [buildDocument, ← Reading.statements_unqualified]
  rfl

/-- A parse with the option off, by the parse with any options. -/
theorem Stream.parseInto_unqualified (s : Stream) (options : Options) (sink : Sink) :
    s.parseInto options.unqualifying sink =
      ((s.parseInto options sink).1.map Document.unqualified, (s.parseInto options sink).2) := by
  have htokens (text : String) : tokenize s.name text.toList options.unqualifying =
      tokenize s.name text.toList options := rfl
  unfold parseInto
  cases s.text with
  | error e => rfl
  | ok text =>
    simp only [htokens]
    split
    · rfl
    · rw [buildDocument_unqualified]
      rfl

/-- Of two parses that differ in whether type selectors are qualified, both give a document or none
    does. They report the same, and their documents are the same but for the addresses of compounds
    without a prefix, and render to the same text. With the option off there are no such addresses. -/
theorem Stream.parseInto_qualified (s : Stream) (options : Options) (qualified : Bool) (sink : Sink) :
    let one := s.parseInto options sink
    let other := s.parseInto { options with qualifiedTypeSelectors := qualified } sink
    one.1.isSome = other.1.isSome ∧ one.2 = other.2 ∧
      one.1.map Document.unqualified = other.1.map Document.unqualified ∧
      one.1.map Document.render = other.1.map Document.render ∧
      (options.qualifiedTypeSelectors = false →
        ∀ d ∈ one.1, ∀ c ∈ d.compounds, c.nsPrefix = none → c.nsAddress = none) := by
  intro one other
  have hone := s.parseInto_unqualified options sink
  have hother : s.parseInto options.unqualifying sink =
      (other.1.map Document.unqualified, other.2) :=
    s.parseInto_unqualified { options with qualifiedTypeSelectors := qualified } sink
  rw [hone] at hother
  obtain ⟨hd, hp⟩ := Prod.mk.inj hother
  have hrender (x : Option Document) :
      (x.map Document.unqualified).map Document.render = x.map Document.render := by
    rw [Option.map_map]
    exact congrArg (x.map ·) (funext Document.render_unqualified)
  refine ⟨?_, hp, hd, ?_, fun hoff d hdoc c hc hn => ?_⟩
  · rw [← Option.isSome_map (f := Document.unqualified), hd, Option.isSome_map]
  · rw [← hrender, ← hrender other.1]
    exact congrArg (Option.map Document.render) hd
  · have heq : options.unqualifying = options := by
      rw [Options.unqualifying, ← hoff]
    -- what is read with the option off is erased already
    have hself : one.1.map Document.unqualified = one.1 := by
      have h := congrArg Prod.fst hone
      rw [heq] at h
      exact h.symm
    rw [← hself] at hdoc
    obtain ⟨d', -, rfl⟩ := Option.map_eq_some_iff.1 hdoc
    obtain ⟨c', rfl⟩ := Document.mem_compounds_unqualified hc
    exact Compound.nsAddress_unqualified hn

/-- A default namespace, and type selectors without a prefix, with one that is bound, and with one that
    nothing binds. -/
def qualifiedStream : Stream :=
  ⟨"qualified.css", .ok "@namespace \"u\"; @namespace p \"v\"; a, p|b, q|c \x7b d: e \x7d"⟩

/-- The addresses of its compounds differ in the first alone; the prefix `q` is reported either way. -/
theorem Stream.parseInto_qualified_qualifiedStream :
    let off := qualifiedStream.parseInto .unqualified []
    let on := qualifiedStream.parseInto .standard []
    off.1.map (·.compounds.map Compound.nsAddress) = some [none, some "v", none] ∧
      on.1.map (·.compounds.map Compound.nsAddress) = some [some "u", some "v", none] ∧
      on.2.map (·.kind) = [.unknownNamespace] ∧ off.2 = on.2 ∧
      off.1.map Document.unqualified = on.1.map Document.unqualified ∧
      off.1.map Document.render = on.1.map Document.render ∧
      ∀ d ∈ off.1, ∀ c ∈ d.compounds, c.nsPrefix = none → c.nsAddress = none := by
  intro off on
  have hoff : off.1.map (·.compounds.map Compound.nsAddress) = some [none, some "v", none] := by
    decide +kernel
  have hon : on.1.map (·.compounds.map Compound.nsAddress) = some [some "u", some "v", none] := by
    decide +kernel
  have hkinds : on.2.map (·.kind) = [.unknownNamespace] := by decide +kernel
  obtain ⟨-, hp, hd, hr, h⟩ := qualifiedStream.parseInto_qualified .unqualified true []
  exact ⟨hoff, hon, hkinds, hp, hd, hr, h rfl⟩

end Stylesheet

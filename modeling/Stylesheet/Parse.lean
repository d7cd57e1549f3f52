import Stylesheet.Grammar.Statement
import Stylesheet.Log
import Stylesheet.Reading.Document
import Stylesheet.Source
import Stylesheet.Token.Stream

/-!
# Parsing a stylesheet

`Stream.parse` takes a source through all stages: characters to tokens, tokens to a tree, the tree to
a document. The report holds the document, the problems in the order in which they were found, and the
log. There is no document only if blocks are nested too deeply or the stream gives no text; the last
problem then says so.
-/

namespace Stylesheet

/-- Where problems are put as they are found. -/
abbrev Sink := List Problem

namespace Sink

/-- One more problem, behind all others. -/
def add (sink : Sink) (p : Problem) : Sink := sink ++ [p]

def addAll (sink : Sink) (ps : List Problem) : Sink := ps.foldl add sink

end Sink

/-- What comes of a parse. -/
structure Report where
  document : Option Document
  problems : List Problem
  log : List LogEntry

namespace Report

/-- Puts problems and log entries in front. -/
def behind (problems : List Problem) (log : List LogEntry) (r : Report) : Report :=
  { r with problems := problems ++ r.problems, log := log ++ r.log }

end Report

/-- Every problem is logged by the stage that finds it. -/
def logProblem (target : LogTarget) (p : Problem) : LogEntry := .event .trace target p.toText

namespace Note

/-- How a note is logged. -/
def logEntry : Note → LogEntry
  | .problem p => logProblem .builder p
  | .bound key address =>
    .event .trace .builder ("Namespace '" ++ key ++ "' -> " ++ address)

end Note

/-- A number of problems, in brackets. -/
def countText (problems : List Problem) : String := "(" ++ toString problems.length ++ " problems)"

namespace Document

/-- The summary of a document and of what was noted while it was made. -/
def summary (d : Document) (problems : List Problem) : String :=
  "Built " ++ d.sourceName ++ ": " ++ toString d.namespaces.length ++ " namespaces, " ++
    toString d.fontFaces.length ++ " font faces, " ++ toString d.rules.length ++ " rules " ++
    countText problems

end Document

/-- A parse that ends without a document: why, as a warning and as a problem. -/
def aborted (warning : String) (p : Problem) : Report :=
  ⟨none, [p], [.event .warn .pipeline warning, logProblem .pipeline p]⟩

/-- Nesting beyond the limit. -/
def tooDeepReport (source : String) (e : TooDeep) : Report :=
  aborted ("Parse of " ++ source ++ " aborted: nesting limit " ++ toString e.limit ++
      " exceeded at " ++ e.position.toText)
    (.ofParams .nestingTooDeep source (.point e.position) [("limit", toString e.limit)])

/-- A stream without a text. -/
def failedReport (source : String) (e : StreamFailure) : Report :=
  aborted ("Parse of " ++ source ++ " panicked: " ++ e.toText)
    (.ofParams .unexpectedException source (.point .start) [("message", e.toText)])

/-- From the tokens to the document. -/
def parseFrom (source : String) (tokens : List Token) (options : Options) : Report :=
  let parsing := parseTokens source tokens
  let building := buildDocument source tokens parsing.tree options
  let parserLog := parsing.problems.map (logProblem .parser) ++
    [.event .debug .parser ("Parsed " ++ toString parsing.tree.children.length ++
      " top-level statements from " ++ source ++ " " ++ countText parsing.problems)]
  let builderLog := building.notes.map Note.logEntry ++
    [.event .debug .builder (building.document.summary building.problems)]
  ⟨some building.document, parsing.problems ++ building.problems, parserLog ++ builderLog⟩

/-- From the text to the document. -/
def parseText (source text : String) (options : Options) : Report :=
  let stream := tokenize source text.toList options
  let lexerLog := stream.problems.map (logProblem .lexer)
  match stream.tooDeep with
  | some e =>
    (tooDeepReport source e).behind stream.problems
      (lexerLog ++ [.event .debug .lexer ("Tokenization aborted: " ++ e.message)])
  | none =>
    (parseFrom source stream.tokens options).behind stream.problems
      (lexerLog ++ [.event .debug .lexer ("Tokenized " ++ source ++ " into " ++
        toString stream.tokens.length ++ " tokens " ++ countText stream.problems)])

/-- Parses a stream. -/
def Stream.parse (s : Stream) (options : Options) : Report :=
  let report := match s.text with
    | .ok text => parseText s.name text options
    | .error e => failedReport s.name e
  { report with log := .opened s.name :: .entered :: (report.log ++ [.exited]) }

/-- Parses a stream and puts what each stage finds into a sink, stage by stage. -/
def Stream.parseInto (s : Stream) (options : Options) (sink : Sink) : Option Document × Sink :=
  match s.text with
  | .error e => (none, sink.addAll (failedReport s.name e).problems)
  | .ok text =>
    let stream := tokenize s.name text.toList options
    let lexed := sink.addAll stream.problems
    match stream.tooDeep with
    | some e => (none, lexed.addAll (tooDeepReport s.name e).problems)
    | none =>
      let parsing := parseTokens s.name stream.tokens
      let parsed := lexed.addAll parsing.problems
      let building := buildDocument s.name stream.tokens parsing.tree options
      (some building.document, parsed.addAll building.problems)

/-- Parses a source. -/
def SourceText.parse (s : SourceText) (options : Options) : Report :=
  (Stream.ofSource s).parse options

end Stylesheet

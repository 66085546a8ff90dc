import SmallMl.Proofs.Command.Modes
import SmallMl.Proofs.Token.Calls

/-!
# The table of tokens

The table can be had with the comments and without them.  Both ways read one stream, by calls of
`read` or by calls of `next`, so the table without the comments is the other one with the rows of
the comments left out; errors, warnings and exit code are the same (`Report.areTables_tokens`).

That calls of the two kinds read one stream is true of any calls in any order; together with the
table this is `Report.calls_read_one_stream`.
-/

namespace SmallMl

namespace Report

/-- The report with a row for each of the tokens, with the errors below and the warnings apart. -/
def table (ts : List Token) (errors warnings : List Diagnostic) : Report :=
  ⟨if errors.isEmpty then success else inputError,
    unlines (tableHead ++ ts.map tokenRow ++ errorLines errors),
    unlines (warnings.map Diagnostic.report)⟩

/-- The reports are the tables of the results of `read` up to the first end token: `full` has a row
for each token among them, and `short` for each one that is no comment. -/
def AreTables (s : Stream) (full short : Report) : Prop :=
  ∃ n, (∀ k < n, Stream.More (s.item k)) ∧ (∃ e, s.item n = .ok e ∧ e.isEof = true) ∧
    full = table (tokensOf (s.results (n + 1))) (errorsOf (s.results (n + 1)))
      (s.skip (n + 1)).heard ∧
    short = table ((tokensOf (s.results (n + 1))).filter fun t => !t.isComment)
      (errorsOf (s.results (n + 1))) (s.skip (n + 1)).heard

theorem tokensOf_nextAll (s : Stream) :
    tokensOf s.nextAll.1 = (tokensOf s.readAll.1).filter fun t => !t.isComment := by
  rw [Stream.nextAll_eq, tokensOf, tokensOf, List.filterMap_filter, List.filter_filterMap]
  congr 1
  funext r
  cases r with
  | ok t => cases h : t.isComment <;> simp [Stream.isComment, Option.filter, h]
  | error d => rfl

theorem tokens_of_unreadable {i : Inputs} {name : String} {e : Failure} (h : i.load name = .error e)
    (comments : Bool) : tokens i name comments = ofFailure e := by
  rw [tokens, h]

/-- **Leaving out the comments leaves out their rows** and nothing else. -/
theorem areTables_tokens {i : Inputs} {name : String} {bytes : List UInt8}
    (h : i.load name = .ok bytes) :
    AreTables (.ofBytes (Inputs.settings name) bytes) (tokens i name true)
      (tokens i name false) := by
  obtain ⟨n, htiles, hspent, hall⟩ :=
    Stream.exists_spent (Stream.at_ofText (Inputs.settings name) (Utf8.decode bytes))
  rw [← Stream.ofBytes] at htiles hspent hall
  have hnext := Stream.nextAll_eq (.ofBytes (Inputs.settings name) bytes)
  refine ⟨n, fun k hk => (htiles k hk).more, ⟨_, congrArg Prod.fst hspent.eof, rfl⟩, ?_, ?_⟩
  · rw [tokens, h]
    simp [hall, table]
  · have herrors := errorsOf_nextAll (.ofBytes (Inputs.settings name) bytes)
    have htokens := tokensOf_nextAll (.ofBytes (Inputs.settings name) bytes)
    rw [hall] at herrors htokens
    rw [tokens, h, ← herrors, ← htokens]
    simp [hnext, hall, table]

/-- **Calls of both kinds read one stream.**  Whatever calls are made, and in whatever order, the
answers are those items of the stream that the calls come to: a call of `read` takes the next item,
a call of `next` the next one that is no comment.  The stream behind them is the one behind the
calls of `read` for the passed items, so its warnings are those of the passed items.

So the two tables of a source are made of the same items.  The one without comments is the other one
less their rows, with the same errors, warnings and exit code. -/
theorem calls_read_one_stream (settings : Settings) (bytes : List UInt8) (cs : List Stream.Call)
    (i : Inputs) (name : String) :
    (∃ m, Stream.Answers (Stream.ofBytes settings bytes).item 0 cs
        ((Stream.ofBytes settings bytes).calls cs).1 m ∧
      ((Stream.ofBytes settings bytes).calls cs).2 = (Stream.ofBytes settings bytes).skip m ∧
      ((Stream.ofBytes settings bytes).calls cs).2.warnings
        = (List.range m).flatMap fun k => ((Stream.ofBytes settings bytes).skip k).raised) ∧
    ((∃ e, i.load name = .error e ∧ ∀ comments, tokens i name comments = ofFailure e) ∨
      ∃ source, i.load name = .ok source ∧
        AreTables (.ofBytes (Inputs.settings name) source) (tokens i name true)
          (tokens i name false)) := by
  constructor
  · obtain ⟨m, ha, hs⟩ := (Stream.ofBytes settings bytes).answers_calls cs 0
    refine ⟨m, ha, hs, ?_⟩
    rw [show ((Stream.ofBytes settings bytes).calls cs).2 = (Stream.ofBytes settings bytes).skip m
      from hs, Stream.warnings_skip]
    rfl
  · cases h : i.load name with
    | error e => exact .inl ⟨e, rfl, tokens_of_unreadable h⟩
    | ok source => exact .inr ⟨source, rfl, areTables_tokens h⟩

end Report

end SmallMl

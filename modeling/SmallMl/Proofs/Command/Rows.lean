import SmallMl.Command.Report
import SmallMl.Proofs.Source.Decoding
import SmallMl.Proofs.Text.Lines
import SmallMl.Proofs.Token.Longest

/-!
# Literals on one line

The table of tokens shows each literal between double quotes, with escapes for newlines, tabs,
carriage returns, backslashes and double quotes.  So a literal stands on one line, and it can be
read back: undoing the escapes between the quotes gives the literal (`Escaped.unescape_escape`), and
the quote at its end is the first one behind its start that is not escaped
(`Escaped.odd_backslashes`, `Escaped.even_backslashes`).

A double quote is escaped if the number of backslashes directly in front of it is odd.  A character
of the literal becomes an even number of backslashes or something that ends in no backslash, so it
does not change which of the quotes behind it are escaped (`Escaped.backslashes_append`).

The other columns of the table hold neither newlines nor double quotes
(`Report.exists_toList_tokenRow`), so every row is one line, and the literal is what stands from its
first double quote on.
-/

namespace SmallMl

namespace Escaped

def backslashes (cs : List Char) : Nat := (cs.reverse.takeWhile (· == '\\')).length

theorem escapeChar_cases (c : Char) :
    (∃ d, escapeChar c = ['\\', d] ∧ d ≠ '\n' ∧ d ≠ '\t' ∧ d ≠ '\r') ∨
      (escapeChar c = [c] ∧ (c ≠ '\n' ∧ c ≠ '\t' ∧ c ≠ '\r') ∧ c ≠ '\\' ∧ c ≠ '"') := by
  unfold escapeChar
  repeat' split
  all_goals simp_all

theorem escape_cons (c : Char) (cs : List Char) : escape (c :: cs) = escapeChar c ++ escape cs :=
  List.flatMap_cons

/-- **What is shown stands on one line.** -/
theorem not_control_of_mem_escape {cs : List Char} :
    ∀ c ∈ escape cs, c ≠ '\n' ∧ c ≠ '\t' ∧ c ≠ '\r' := by
  intro c hc
  obtain ⟨d, -, hcd⟩ := List.mem_flatMap.1 hc
  rcases escapeChar_cases d with ⟨e, he, hne⟩ | ⟨he, hne, -⟩
  · rw [he, List.mem_cons, List.mem_singleton] at hcd
    rcases hcd with rfl | rfl
    · decide
    · exact hne
  · rw [he, List.mem_singleton] at hcd
    exact hcd ▸ hne

theorem newline_not_mem_literal (cs : List Char) : '\n' ∉ literal cs := by
  intro h
  rcases List.mem_cons.1 h with h | h
  · exact absurd h (by decide)
  rcases List.mem_append.1 h with h | h
  · exact (not_control_of_mem_escape _ h).1 rfl
  · exact absurd (List.mem_singleton.1 h) (by decide)

/-- A part in front that ends in an even number of backslashes does not count. -/
theorem backslashes_append {xs : List Char} (hx : backslashes xs % 2 = 0) (cs : List Char) :
    backslashes (xs ++ cs) % 2 = backslashes cs % 2 := by
  unfold backslashes at *
  rw [List.reverse_append, List.takeWhile_append]
  split
  · next h => rw [List.length_append, ← h]; omega
  · rfl

theorem backslashes_escapeChar (c : Char) : backslashes (escapeChar c) % 2 = 0 := by
  rcases escapeChar_cases c with ⟨d, he, -⟩ | ⟨he, -, hc, -⟩
  · by_cases hd : d = '\\'
    · subst hd
      rw [he]
      rfl
    · simp [he, backslashes, hd]
  · simp [he, backslashes, hc]

theorem odd_backslashes_escapeChar {c : Char} {pre post : List Char}
    (h : escapeChar c = pre ++ '"' :: post) : backslashes pre % 2 = 1 := by
  rcases escapeChar_cases c with ⟨d, he, -⟩ | ⟨he, -, -, hc⟩ <;> rw [he] at h
  · -- the quote is the character behind the backslash
    match pre with
    | [] => cases h
    | [a] =>
      obtain ⟨rfl, -⟩ := List.cons.inj h
      rfl
    | a :: b :: pre => simp at h
  · cases pre with
    | nil => exact absurd (List.cons.inj h).1 hc
    | cons a pre => simp at h

/-- **Every quote inside is escaped.** -/
theorem odd_backslashes {cs pre post : List Char} (h : escape cs = pre ++ '"' :: post) :
    backslashes pre % 2 = 1 := by
  induction cs generalizing pre with
  | nil => simp [escape] at h
  | cons c cs ih =>
    rw [escape_cons, List.append_eq_append_iff] at h
    rcases h with ⟨pre', rfl, h⟩ | ⟨x, hx, h⟩
    · rw [backslashes_append (backslashes_escapeChar c)]
      exact ih h
    · cases x with
      | nil =>
        have h0 : escape cs = [] ++ '"' :: post := h.symm
        exact absurd (ih h0) (by decide)
      | cons q x =>
        obtain ⟨rfl, -⟩ := List.cons.inj h
        exact odd_backslashes_escapeChar hx

/-- **The quote at the end is not escaped.** -/
theorem even_backslashes (cs : List Char) : backslashes (escape cs) % 2 = 0 := by
  induction cs with
  | nil => rfl
  | cons c cs ih => rw [escape_cons, backslashes_append (backslashes_escapeChar c), ih]

/-- **Different literals are shown differently.** -/
theorem literal_injective {cs ds : List Char} (h : literal cs = literal ds) : cs = ds := by
  have he : escape cs = escape ds := List.append_cancel_right (List.cons.inj h).2
  rw [← unescape_escape cs, he, unescape_escape]

end Escaped

namespace Report

/-! ### Rows -/

/-- The text holds neither newlines nor double quotes. -/
def Plain (s : String) : Prop := ∀ c ∈ s.toList, c ≠ '\n' ∧ c ≠ '"'

instance : DecidablePred Plain := fun s => List.decidableBAll _ s.toList

theorem plain_append {s t : String} (hs : Plain s) (ht : Plain t) : Plain (s ++ t) := by
  intro c hc
  rw [String.toList_append] at hc
  rcases List.mem_append.1 hc with hc | hc
  · exact hs c hc
  · exact ht c hc

theorem plain_pad {s : String} (hs : Plain s) (width : Nat) : Plain (pad width s) := by
  refine plain_append hs fun c hc => ?_
  rw [String.toList_ofList] at hc
  rw [List.eq_of_mem_replicate hc]
  decide

theorem plain_render (r : Range) : Plain r.render := by
  intro c hc
  have hm := Range.isMark_of_mem_render hc
  constructor <;> rintro rfl <;> exact absurd hm (by decide)

theorem plain_name (k : Kind) : Plain k.name := by
  cases k <;> (rw [Kind.name]; decide)

theorem plain_className (k : Kind) : Plain k.className := by
  unfold Kind.className
  repeat' split
  all_goals decide

theorem exists_toList_row {range kind className : String} (hr : Plain range) (hk : Plain kind)
    (hc : Plain className) (literal : String) : ∃ front, Plain front ∧
      (row range kind className literal).toList = front.toList ++ literal.toList := by
  have hs : Plain " " := by decide
  refine ⟨pad 20 range ++ " " ++ pad 12 kind ++ " " ++ pad 8 className ++ " ", ?_, by simp [row]⟩
  have h1 := plain_append (plain_pad hr 20) hs
  have h2 := plain_append (plain_append h1 (plain_pad hk 12)) hs
  exact plain_append (plain_append h2 (plain_pad hc 8)) hs

theorem oneLine_row {range kind className literal : String} (hr : Plain range) (hk : Plain kind)
    (hc : Plain className) (hl : OneLine literal) : OneLine (row range kind className literal) := by
  obtain ⟨front, hf, ht⟩ := exists_toList_row hr hk hc literal
  unfold OneLine
  rw [ht]
  intro h
  rcases List.mem_append.1 h with h | h
  · exact (hf _ h).1 rfl
  · exact hl h

theorem oneLine_tableHead : ∀ l ∈ tableHead, OneLine l := by
  intro l hl
  rw [tableHead, List.mem_cons, List.mem_singleton] at hl
  rcases hl with rfl | rfl <;> apply oneLine_row <;> decide

theorem oneLine_tokenRow (t : Token) : OneLine (tokenRow t) := by
  refine oneLine_row (plain_render _) (plain_name _) (plain_className _) ?_
  unfold OneLine
  rw [String.toList_ofList]
  exact Escaped.newline_not_mem_literal t.lit

/-- **A row shows the literal behind columns without newlines and double quotes.** -/
theorem exists_toList_tokenRow (t : Token) : ∃ front, Plain front ∧
    (tokenRow t).toList = front.toList ++ Escaped.literal t.lit := by
  have h := exists_toList_row (plain_render t.range) (plain_name t.kind) (plain_className t.kind)
    (String.ofList (Escaped.literal t.lit))
  rwa [String.toList_ofList] at h

/-! ### Lines -/

theorem splitOn_unlines_append {ls : List String} (h : ∀ l ∈ ls, OneLine l) (ls' : List String) :
    (unlines (ls ++ ls')).toList.splitOn '\n'
      = ls.map String.toList ++ (unlines ls').toList.splitOn '\n' := by
  rw [unlines, List.map_append, String.join_append]
  exact splitOn_lines_append h _

/-- The results that the table of a source is made of, with the comments or without them. -/
def listed (name : String) (bytes : List UInt8) (comments : Bool) :
    List (Except Diagnostic Token) :=
  if comments then (Stream.ofBytes (Inputs.settings name) bytes).readAll.1
  else (Stream.ofBytes (Inputs.settings name) bytes).nextAll.1

theorem stdout_tokens {i : Inputs} {name : String} {bytes : List UInt8}
    (h : i.load name = .ok bytes) (comments : Bool) :
    (tokens i name comments).stdout = unlines (tableHead ++
      (tokensOf (listed name bytes comments)).map tokenRow ++
        errorLines (errorsOf (listed name bytes comments))) := by
  rw [tokens, h]
  cases comments <;> rfl

/-- **The lines of a table are its rows.** -/
theorem splitOn_stdout_tokens {i : Inputs} {name : String} {bytes : List UInt8}
    (h : i.load name = .ok bytes) (comments : Bool) :
    (tokens i name comments).stdout.toList.splitOn '\n'
      = tableHead.map String.toList ++
        ((tokensOf (listed name bytes comments)).map (fun t => (tokenRow t).toList) ++
          (unlines (errorLines (errorsOf (listed name bytes comments)))).toList.splitOn '\n') := by
  have hrows : ∀ l ∈ (tokensOf (listed name bytes comments)).map tokenRow, OneLine l := by
    intro l hl
    obtain ⟨t, -, rfl⟩ := List.mem_map.1 hl
    exact oneLine_tokenRow t
  rw [stdout_tokens h, List.append_assoc, splitOn_unlines_append oneLine_tableHead,
    splitOn_unlines_append hrows, List.map_map]
  rfl

/-- **Literals are shown reversibly and on one line.**  A literal is shown between double quotes.
Between them there is no newline, no tab and no carriage return, every double quote is escaped, the
one at the end is not, and undoing the escapes gives the literal.  So different literals are shown
differently.

The lines of the table are its head, one line for each token, whatever its literal is, and what is
said of errors.  In the line of a token the literal stands behind columns without a double quote. -/
theorem literals_on_lines :
    (∀ lit, ∃ inner, Escaped.literal lit = '"' :: inner ++ ['"'] ∧
      (∀ c ∈ inner, c ≠ '\n' ∧ c ≠ '\t' ∧ c ≠ '\r') ∧
      (∀ pre post, inner = pre ++ '"' :: post → Escaped.backslashes pre % 2 = 1) ∧
      Escaped.backslashes inner % 2 = 0 ∧ Escaped.unescape inner = lit) ∧
    (∀ lit lit', Escaped.literal lit = Escaped.literal lit' → lit = lit') ∧
    (∀ i name bytes comments, Inputs.load i name = .ok bytes →
      (tokens i name comments).stdout.toList.splitOn '\n'
        = tableHead.map String.toList ++
          ((tokensOf (listed name bytes comments)).map (fun t => (tokenRow t).toList) ++
            (unlines (errorLines (errorsOf (listed name bytes comments)))).toList.splitOn '\n')) ∧
    ∀ t, ∃ front, Plain front ∧ (tokenRow t).toList = front.toList ++ Escaped.literal t.lit :=
  ⟨fun lit => ⟨Escaped.escape lit, rfl, Escaped.not_control_of_mem_escape,
    fun _ _ => Escaped.odd_backslashes, Escaped.even_backslashes lit,
    Escaped.unescape_escape lit⟩, fun _ _ => Escaped.literal_injective,
    fun _ _ _ comments h => splitOn_stdout_tokens h comments, exists_toList_tokenRow⟩

/-- A comment of two lines that holds a double quote and a backslash. -/
theorem comment_on_one_line : ∃ (i : Inputs) (inner : List Char),
    i.load "-" = .ok (Utf8.encode "(*\"\\\n*)") ∧
      (tokens i "-" true).stdout.toList.splitOn '\n' = tableHead.map String.toList ++
        ["1:1-2:3              COMMENT      -        \"(*\\\"\\\\\\n*)\"".toList,
          "2:3-2:3              EOF          eof      \"\"".toList, []] ∧
      Escaped.literal "(*\"\\\n*)".toList = '"' :: inner ++ ['"'] ∧
      inner = "(*\\".toList ++ '"' :: "\\\\\\n*)".toList ∧
      Escaped.backslashes "(*\\".toList % 2 = 1 ∧
      Escaped.unescape inner = "(*\"\\\n*)".toList := by
  obtain ⟨hlit, -, hlines, -⟩ := literals_on_lines
  obtain ⟨i, hi⟩ : ∃ i : Inputs, i.load "-" = .ok (Utf8.encode "(*\"\\\n*)") :=
    ⟨{ file := fun _ => .error .missing, stdin := Utf8.encode "(*\"\\\n*)" }, rfl⟩
  obtain ⟨inner, hq, -, hodd, -, hu⟩ := hlit "(*\"\\\n*)".toList
  have hinner : inner = "(*\\".toList ++ '"' :: "\\\\\\n*)".toList :=
    (List.append_cancel_right (List.cons.inj hq).2).symm
  refine ⟨i, inner, hi, ?_, hq, hinner, hodd _ _ hinner, hu⟩
  -- the comment is the whole text
  have hread : (Stream.ofText (Inputs.settings "-") "(*\"\\\n*)".toList).read
      = (.ok ⟨.comment, ⟨⟨1, 1, 0⟩, ⟨2, 3, 7⟩⟩, "(*\"\\\n*)".toList⟩,
        (Stream.ofText (Inputs.settings "-") "(*\"\\\n*)".toList).past
          "(*\"\\\n*)".toList []) := rfl
  have hall : listed "-" (Utf8.encode "(*\"\\\n*)") true
      = [.ok ⟨.comment, ⟨⟨1, 1, 0⟩, ⟨2, 3, 7⟩⟩, "(*\"\\\n*)".toList⟩,
        .ok (Stream.endToken ⟨2, 3, 7⟩)] := by
    rw [listed, if_pos rfl, Stream.ofBytes, Utf8.decode_encode, Stream.readAll_of_last hread rfl]
    rfl
  rw [hlines i "-" _ true hi, hall]
  exact congrArg _ (by decide +kernel)

end Report

end SmallMl

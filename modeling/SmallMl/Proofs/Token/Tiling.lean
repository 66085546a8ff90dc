import SmallMl.Proofs.Token.Placement

/-!
# The results of reading tile the text

A stream that is asked for token after token passes over the whole text: between two results there
are only blanks, a token is spelled with exactly the characters it covers, and a lexeme that is no
token is passed over all the same.  So nothing of the text is lost and nothing is read twice.

* `Stream.Tile`: what one call in front of a lexeme does, as seen from the text.
* `Stream.read_tiles_text`: the calls in front of the end token are tiles, there are finitely many
  of them, and from then on every call gives the same end token.
-/

namespace SmallMl

/-! ### The characters of a range -/

def Range.cut (text : List Char) (r : Range) : List Char :=
  (text.drop r.start.offset.toNat).take (r.stop.offset - r.start.offset).toNat

namespace Location

theorem offset_start_after (cs : List Char) : (start.after cs).offset = cs.length := by
  rw [offset_after]
  simp [start]

end Location

theorem Range.cut_after (pre mid post : List Char) :
    Range.cut (pre ++ (mid ++ post)) ⟨Location.start.after pre, Location.start.after (pre ++ mid)⟩
      = mid := by
  simp only [Range.cut, Location.offset_start_after, List.length_append, Int.toNat_natCast]
  have hlen : ((pre.length + mid.length : Nat) - pre.length : Int).toNat = mid.length := by omega
  rw [List.drop_left, hlen, List.take_left]

namespace Stream

/-! ### One call -/

def place : Except Diagnostic Token → Location
  | .ok t => t.range.start
  | .error d => d.loc

/-- The next call passes over blanks and then over at least one character of the text, from the
place of its result on; a token is spelled with the characters it covers. -/
structure Tile (text : List Char) (s : Stream) : Prop where
  more : More s.read.1
  inOrder : s.loc.offset ≤ (place s.read.1).offset
  gap : ∀ c ∈ Range.cut text ⟨s.loc, place s.read.1⟩, Lexeme.isBlank c = true
  advance : (place s.read.1).offset < s.read.2.loc.offset
  inside : s.read.2.loc.offset ≤ text.length
  stop : ∀ t, s.read.1 = .ok t → t.range.stop = s.read.2.loc
  lit : ∀ t, s.read.1 = .ok t → t.lit = t.range.cut text

/-- Only blanks are left of the text, and the next call gives the end token behind them. -/
structure Spent (text : List Char) (s : Stream) : Prop where
  gap : ∀ c ∈ Range.cut text ⟨s.loc, Location.start.after text⟩, Lexeme.isBlank c = true
  eof : s.read = (.ok (endToken (Location.start.after text)),
    { s with rest := [], loc := Location.start.after text })

section

variable {text : List Char} {s : Stream}

theorem At.split (h : s.At text) : ∃ pre gap, text = pre ++ (gap ++ s.body) ∧
    (∀ c ∈ gap, Lexeme.isBlank c = true) ∧ s.loc = Location.start.after pre ∧
    s.here = Location.start.after (pre ++ gap) := by
  obtain ⟨pre, ht, hl⟩ := h
  refine ⟨pre, s.rest.takeWhile Lexeme.isBlank, ?_, ?_, hl, ?_⟩
  · rw [ht, body, List.takeWhile_append_dropWhile]
  · intro c hc
    exact List.mem_takeWhile_imp hc
  · rw [Stream.here, hl, Location.after_append]

theorem place_result (s : Stream) (l : Lexeme) : place (s.result l) = s.here := by
  rw [result]
  cases l.found <;> rfl

theorem of_result_eq_ok {l : Lexeme} {t : Token} (h : s.result l = .ok t) :
    t.range = ⟨s.here, s.here.after l.text⟩ ∧ t.lit = l.text := by
  rw [result] at h
  cases hf : l.found with
  | error f => rw [hf] at h; cases h
  | ok k =>
    rw [hf] at h
    cases h
    exact ⟨rfl, rfl⟩

/-- **A call in front of a lexeme is a tile.** -/
theorem At.tile (h : s.At text) {c : Char} {r : List Char} (hb : s.body = c :: r) :
    s.Tile text ∧ s.read.2.At text := by
  obtain ⟨pre, gap, ht, hgap, hloc, hhere⟩ := h.split
  have hx := Lexeme.text_append_rest c r
  have hn := List.length_pos_iff.2 (Lexeme.text_ne_nil c r)
  have hread : s.read = (s.result (Lexeme.read c r), s.behind (Lexeme.read c r)) := by
    rw [Stream.read, hb]
  have hplace : place s.read.1 = Location.start.after (pre ++ gap) := by
    rw [hread, place_result, hhere]
  have hloc' : s.read.2.loc = Location.start.after (pre ++ gap ++ (Lexeme.read c r).text) := by
    rw [hread, loc_behind, hhere, ← Location.after_append]
  rw [hb, ← hx] at ht
  have hoff : (Location.start.after (pre ++ gap)).offset = pre.length + gap.length := by
    rw [Location.offset_start_after, List.length_append]
    push_cast
    rfl
  have hoff' : s.read.2.loc.offset
      = pre.length + gap.length + (Lexeme.read c r).text.length := by
    rw [hloc', Location.offset_start_after, List.length_append, List.length_append]
    push_cast
    rfl
  refine ⟨⟨?_, ?_, ?_, ?_, ?_, ?_, ?_⟩, pre ++ gap ++ (Lexeme.read c r).text, ?_, hloc'⟩
  · intro t hr
    cases ht' : t.isEof with
    | false => rfl
    | true =>
      rw [body_eq_nil_of_eof hr ht'] at hb
      cases hb
  · rw [hplace, hoff, hloc, Location.offset_start_after]
    omega
  · rw [hplace, hloc, ht, Range.cut_after]
    exact hgap
  · rw [hplace, hoff, hoff']
    omega
  · rw [hoff', ht]
    simp only [List.length_append]
    push_cast
    omega
  · intro t hr
    rw [hread] at hr
    rw [(of_result_eq_ok hr).1, hread, loc_behind]
  · intro t hr
    rw [hread] at hr
    obtain ⟨hrange, hlit⟩ := of_result_eq_ok hr
    rw [hread, loc_behind] at hloc'
    rw [hrange, hlit, hloc', hhere, ht, ← List.append_assoc pre, Range.cut_after]
  · rw [hread, rest_behind, ht]
    simp only [List.append_assoc]

theorem At.spent (h : s.At text) (hb : s.body = []) : s.Spent text := by
  obtain ⟨pre, gap, ht, hgap, hloc, hhere⟩ := h.split
  rw [hb, List.append_nil] at ht
  have hcut := Range.cut_after pre gap []
  rw [List.append_nil, ← ht] at hcut
  rw [← ht] at hhere
  refine ⟨?_, ?_⟩
  · rw [hloc, hcut]
    exact hgap
  · rw [Stream.read, hb, hhere]

end

/-! ### Call after call -/

def skip (s : Stream) : Nat → Stream
  | 0 => s
  | n + 1 => (s.skip n).read.2

theorem skip_succ (s : Stream) (n : Nat) : s.skip (n + 1) = s.read.2.skip n := by
  induction n with
  | zero => rfl
  | succ n ih => rw [skip, ih, skip]

def results (s : Stream) (n : Nat) : List (Except Diagnostic Token) :=
  (List.range n).map fun i => (s.skip i).read.1

theorem results_succ (s : Stream) (n : Nat) :
    s.results (n + 1) = s.read.1 :: s.read.2.results n := by
  simp only [results, List.range_succ_eq_map, List.map_cons, List.map_map]
  congr 1
  apply List.map_congr_left
  intro i _
  simp only [Function.comp_apply, skip_succ]

theorem readAll_of_eof {s : Stream} {t : Token} (h : s.read.1 = .ok t) (ht : t.isEof = true) :
    s.readAll = ([.ok t], s.read.2) := by
  rw [readAll]
  split
  · next t' h' =>
    rw [h] at h'
    cases h'
    rw [dif_pos ht]
  · next d h' =>
    rw [h] at h'
    cases h'

theorem readAll_of_more {s : Stream} (h : More s.read.1) :
    s.readAll = (s.read.1 :: s.read.2.readAll.1, s.read.2.readAll.2) := by
  rw [readAll]
  split
  · next t ht =>
    rw [dif_neg (by simp [h t ht])]
    simp only [ht]
  · next d hd => simp only [hd]

theorem exists_spent {text : List Char} : ∀ {s : Stream}, s.At text → ∃ n,
    (∀ i < n, (s.skip i).Tile text) ∧ (s.skip n).Spent text ∧
      s.readAll = (s.results (n + 1), s.skip (n + 1)) := by
  intro s
  induction hl : s.rest.length using Nat.strong_induction_on generalizing s with
  | _ l ih =>
    intro h
    cases hb : s.body with
    | nil =>
      have hs := h.spent hb
      refine ⟨0, fun i hi => absurd hi (Nat.not_lt_zero i), hs, ?_⟩
      have hr : s.read.1 = .ok (endToken (Location.start.after text)) := by rw [hs.eof]
      rw [readAll_of_eof hr rfl, results_succ, hr]
      rfl
    | cons c r =>
      obtain ⟨htile, hat⟩ := h.tile hb
      have hlt := length_read htile.more
      obtain ⟨n, hn, hsp, hall⟩ := ih _ (by omega) rfl hat
      refine ⟨n + 1, ?_, ?_, ?_⟩
      · intro i hi
        cases i with
        | zero => exact htile
        | succ i =>
          rw [skip_succ]
          exact hn i (by omega)
      · rw [skip_succ]
        exact hsp
      · rw [readAll_of_more htile.more, hall, results_succ s, skip_succ s]

/-- Behind the end token nothing changes. -/
theorem Spent.skip {text : List Char} {s : Stream} (h : s.Spent text) (m : Nat) :
    (s.skip m).Spent text ∧ (s.skip m).warnings = s.warnings ∧ (s.skip m).heard = s.heard := by
  induction m with
  | zero => exact ⟨h, rfl, rfl⟩
  | succ m ih =>
    obtain ⟨hs, hw, hh⟩ := ih
    have hnext : s.skip (m + 1)
        = { s.skip m with rest := [], loc := Location.start.after text } := by
      rw [Stream.skip, hs.eof]
    have hat : (s.skip (m + 1)).At text := by
      rw [hnext]
      exact ⟨text, (List.append_nil text).symm, rfl⟩
    have hb : (s.skip (m + 1)).body = [] := by
      rw [hnext]
      rfl
    refine ⟨hat.spent hb, ?_, ?_⟩
    · rw [hnext]
      exact hw
    · rw [hnext]
      exact hh

theorem skip_add (s : Stream) (n m : Nat) : s.skip (n + m) = (s.skip n).skip m := by
  induction m with
  | zero => rfl
  | succ m ih => rw [← Nat.add_assoc, skip, ih, skip]

/-- **Reading loses nothing and comes to an end.**  For every byte string there is a number of calls
each of which passes over blanks and then over a lexeme of at least one character.  The next call,
and every one after it, gives the end token behind the text, and none of them adds a warning. -/
theorem read_tiles_text (settings : Settings) (bytes : List UInt8) :
    ∃ n, (∀ i < n, ((ofBytes settings bytes).skip i).Tile (Utf8.decode bytes)) ∧
      (ofBytes settings bytes).readAll
        = ((ofBytes settings bytes).results (n + 1), (ofBytes settings bytes).skip (n + 1)) ∧
      ∀ m ≥ n, ((ofBytes settings bytes).skip m).Spent (Utf8.decode bytes) ∧
        ((ofBytes settings bytes).skip m).warnings
          = ((ofBytes settings bytes).skip n).warnings ∧
        ((ofBytes settings bytes).skip m).heard = ((ofBytes settings bytes).skip n).heard := by
  obtain ⟨n, hn, hs, hall⟩ := exists_spent (at_ofText settings (Utf8.decode bytes))
  refine ⟨n, hn, hall, ?_⟩
  intro m hm
  obtain ⟨k, rfl⟩ := Nat.exists_eq_add_of_le hm
  rw [skip_add]
  exact hs.skip k

end Stream

end SmallMl

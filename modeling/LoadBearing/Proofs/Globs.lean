import LoadBearing.Ignore.Glob
import LoadBearing.Proofs.Marks

/-! # Globs that match everything below

A token that has taken its part of a text takes the same part of a longer text.  So a pattern whose
last tokens are directories and a name goes on to match when a path is followed further down: the
directories take what the name took before, and the name takes the last segment.

The non-trivial ingredient is `exists_of_readAll`: whatever a pattern starts with, its end `/**/*` is
read as such tokens.  No class and no group can swallow it, since it closes neither.
-/

namespace LoadBearing

namespace Token

/-! ## What a token leaves -/

theorem mem_ends {text rest : List UInt8} : rest ∈ ends text ↔ rest <:+ text := by
  induction text with
  | nil => simp [ends]
  | cons byte text ih => simp [ends, ih, List.suffix_cons_iff]

theorem mem_endsInName {text rest : List UInt8} :
    rest ∈ endsInName text ↔ ∃ taken, text = taken ++ rest ∧ slash ∉ taken := by
  induction text generalizing rest with
  | nil => simp [endsInName]
  | cons byte text ih =>
    rw [endsInName, List.mem_cons]
    constructor
    · rintro (rfl | later)
      · exact ⟨[], rfl, by simp⟩
      · by_cases here : byte = slash
        · simp [here] at later
        · rw [if_neg here, ih] at later
          obtain ⟨taken, rfl, free⟩ := later
          exact ⟨byte :: taken, rfl, by simp [free, Ne.symm here]⟩
    · rintro ⟨taken, whole, free⟩
      cases taken with
      | nil => exact .inl (by simpa using whole.symm)
      | cons first taken =>
        obtain ⟨rfl, rfl⟩ := List.cons.inj whole
        rw [List.mem_cons, not_or] at free
        rw [if_neg (Ne.symm free.1), ih]
        exact .inr ⟨taken, rfl, free.2⟩

theorem mem_endsAfterSlash {text rest : List UInt8} :
    rest ∈ endsAfterSlash text ↔ ∃ taken, text = taken ++ slash :: rest := by
  induction text with
  | nil => simp [endsAfterSlash]
  | cons byte text ih =>
    have split : (∃ taken, byte :: text = taken ++ slash :: rest) ↔
        (byte = slash ∧ text = rest) ∨ ∃ taken, text = taken ++ slash :: rest := by
      constructor
      · rintro ⟨taken, whole⟩
        cases taken with
        | nil => exact .inl (by simpa using whole)
        | cons first taken => exact .inr ⟨taken, (List.cons.inj whole).2⟩
      · rintro (⟨rfl, rfl⟩ | ⟨taken, rfl⟩)
        · exact ⟨[], rfl⟩
        · exact ⟨byte :: taken, rfl⟩
    rw [split, ← ih]
    by_cases here : byte = slash
    · simp [endsAfterSlash, here, eq_comm]
    · simp [endsAfterSlash, here]

/-! ## Longer texts -/

-- On the token, with its branches and the tokens of a branch, as the three functions recurse.
mutual

theorem rests_append (extra : List UInt8) :
    ∀ (token : Token) {text rest : List UInt8}, rest ∈ token.rests text →
      rest ++ extra ∈ token.rests (text ++ extra)
  | .literal bytes, text, rest, member => by
    simp only [rests] at member ⊢
    split at member
    next starts =>
      obtain ⟨after, rfl⟩ := List.isPrefixOf_iff_prefix.1 starts
      simp_all [List.isPrefixOf_iff_prefix]
    next => cases member
  | .any, [], rest, member => by simp [rests] at member
  | .any, byte :: text, rest, member => by
    simp only [rests, List.cons_append] at member ⊢
    split at member
    · cases member
    · simp_all
  | .many, text, rest, member => by
    simp only [rests, mem_endsInName] at member ⊢
    obtain ⟨taken, rfl, free⟩ := member
    exact ⟨taken, by simp, free⟩
  | .leadingDirs, text, rest, member => by
    simp only [rests, List.mem_cons, mem_endsAfterSlash] at member ⊢
    rcases member with rfl | ⟨taken, rfl⟩
    · exact .inl rfl
    · exact .inr ⟨taken, by simp⟩
  | .trailingDirs, [], rest, member => by simp [rests] at member
  | .trailingDirs, byte :: text, rest, member => by
    simp only [rests, List.cons_append] at member ⊢
    split at member
    next here =>
      rw [if_pos here, mem_ends]
      obtain ⟨taken, rfl⟩ := mem_ends.1 member
      exact ⟨taken, by simp⟩
    next => cases member
  | .innerDirs, [], rest, member => by simp [rests] at member
  | .innerDirs, byte :: text, rest, member => by
    simp only [rests, List.cons_append] at member ⊢
    split at member
    next here =>
      rw [if_pos here, List.mem_cons, mem_endsAfterSlash]
      rcases List.mem_cons.1 member with rfl | later
      · exact .inl rfl
      · obtain ⟨taken, rfl⟩ := mem_endsAfterSlash.1 later
        exact .inr ⟨taken, by simp⟩
    next => cases member
  | .oneOf negated ranges, [], rest, member => by simp [rests] at member
  | .oneOf negated ranges, byte :: text, rest, member => by
    simp only [rests, List.cons_append] at member ⊢
    split at member
    · simp_all
    · cases member
  | .alternates branches, text, rest, member => by
    simp only [rests] at member ⊢
    split at member
    next empty =>
      rw [if_pos empty, List.mem_singleton.1 member]
      exact List.mem_singleton_self _
    next some =>
      rw [if_neg some]
      exact restsAny_append extra branches member

theorem restsAny_append (extra : List UInt8) :
    ∀ (branches : List (List Token)) {text rest : List UInt8}, rest ∈ restsAny branches text →
      rest ++ extra ∈ restsAny branches (text ++ extra)
  | [], text, rest, member => by simp [restsAny] at member
  | branch :: branches, text, rest, member => by
    simp only [restsAny, List.mem_append] at member ⊢
    rcases member with here | later
    · split at here
      · cases here
      next some =>
        rw [if_neg some]
        exact .inl (restsAll_append extra branch here)
    · exact .inr (restsAny_append extra branches later)

theorem restsAll_append (extra : List UInt8) :
    ∀ (tokens : List Token) {text rest : List UInt8}, rest ∈ restsAll tokens text →
      rest ++ extra ∈ restsAll tokens (text ++ extra)
  | [], text, rest, member => by simp_all [restsAll]
  | token :: tokens, text, rest, member => by
    simp only [restsAll, List.mem_flatMap] at member ⊢
    obtain ⟨between, first, second⟩ := member
    exact ⟨between ++ extra, rests_append extra token first, restsAll_append extra tokens second⟩

end

theorem restsAll_concat (left right : List Token) (text : List UInt8) :
    restsAll (left ++ right) text = (restsAll left text).flatMap (restsAll right) := by
  induction left generalizing text with
  | nil => simp [restsAll]
  | cons token left ih =>
    simp only [List.cons_append, restsAll, List.flatMap_assoc]
    congr 1
    funext between
    exact ih between

/-! ## Directories and a name at the end -/

def IsDirs : Token → Prop
  | .leadingDirs | .innerDirs | .trailingDirs => True
  | _ => False

/-- Directories that take some of a text take all segments but the last of a longer one. -/
theorem IsDirs.mem_rests {token : Token} (dirs : token.IsDirs) {text rest : List UInt8}
    (member : rest ∈ token.rests text) (between name : List UInt8) :
    name ∈ token.rests (text ++ (between ++ slash :: name)) := by
  cases token with
  | leadingDirs =>
    rw [rests, List.mem_cons, mem_endsAfterSlash]
    exact .inr ⟨text ++ between, by simp⟩
  | innerDirs =>
    cases text with
    | nil => simp [rests] at member
    | cons byte text =>
      have here : byte = slash := by
        by_contra other
        simp [rests, other] at member
      rw [List.cons_append, rests, if_pos here, List.mem_cons, mem_endsAfterSlash]
      exact .inr ⟨text ++ between, by simp⟩
  | trailingDirs =>
    cases text with
    | nil => simp [rests] at member
    | cons byte text =>
      have here : byte = slash := by
        by_contra other
        simp [rests, other] at member
      rw [List.cons_append, rests, if_pos here, mem_ends]
      exact ⟨text ++ between ++ [slash], by simp⟩
  | literal | any | many | oneOf | alternates => cases dirs

end Token

namespace Glob

open Token

/-- The last tokens of a pattern are directories and a name. -/
def Deep (glob : Glob) : Prop :=
  ∃ tokens token, glob = tokens ++ [token, .many] ∧ IsDirs token

theorem isMatch_iff {glob : Glob} {path : List UInt8} :
    glob.isMatch path = true ↔ glob.isAnything = true ∨ [] ∈ restsAll glob path := by
  simp [isMatch]

theorem Deep.isAnything {glob : Glob} (deep : Deep glob) : glob.isAnything = false := by
  obtain ⟨tokens, token, rfl, -⟩ := deep
  cases tokens with
  | nil => cases token <;> rfl
  | cons first rest => cases rest <;> cases first <;> rfl

/-- What matches a directory matches all that is below it. -/
theorem Deep.isMatch_below {glob : Glob} (deep : Deep glob) {path : List UInt8}
    (found : glob.isMatch path = true) (below : List UInt8) :
    glob.isMatch (path ++ slash :: below) = true := by
  rw [isMatch_iff, deep.isAnything] at found ⊢
  obtain ⟨tokens, token, rfl, dirs⟩ := deep
  simp only [Bool.false_eq_true, false_or, restsAll_concat, List.mem_flatMap] at found ⊢
  obtain ⟨rest, first, second⟩ := found
  obtain ⟨between, name, whole, free⟩ :=
    Text.exists_last_mark (List.mem_cons_self : slash ∈ slash :: below)
  refine ⟨rest ++ slash :: below, restsAll_append _ tokens first, ?_⟩
  obtain ⟨after, taken, -⟩ := List.mem_flatMap.1 second
  rw [restsAll, List.mem_flatMap, whole]
  refine ⟨name, dirs.mem_rests taken between name, ?_⟩
  -- The name has no slash, so `many` takes it whole.
  simp only [restsAll, rests, List.mem_flatMap, mem_endsInName, List.mem_singleton]
  exact ⟨[], ⟨name, by simp, free⟩, rfl⟩

/-! ## What one step of reading takes -/

/-- The characters that one step of the reader takes: one that stands for itself or is a mark, an
    escaped one, two stars, with a slash after them if they stand for directories, or a class. -/
inductive Piece : List Char → Prop where
  | single (c : Char) : Piece [c]
  | escaped (c : Char) : Piece ['\\', c]
  | stars : Piece ['*', '*']
  | directories : Piece ['*', '*', '/']
  | bracketed (front : List Char) : Piece (front ++ [']'])

theorem Piece.ne_nil {piece : List Char} (taken : Piece piece) : piece ≠ [] := by
  cases taken <;> simp

theorem exists_of_readClass {d : ClassDraft} {text rest : List Char} {ranges : List (Char × Char)}
    (read : readClass d text = .ok (ranges, rest)) : ∃ front, text = front ++ ']' :: rest := by
  induction text generalizing d with
  | nil => cases read
  | cons c text ih =>
    rw [readClass] at read
    split at read
    next closes =>
      have bracket : c = ']' := by simp_all
      cases read
      exact ⟨[], by rw [bracket]; rfl⟩
    next =>
      cases added : d.add c with
      | error e =>
        rw [added] at read
        cases read
      | ok d' =>
        rw [added] at read
        obtain ⟨front, rfl⟩ := ih read
        exact ⟨c :: front, rfl⟩

theorem exists_of_classToken {text rest : List Char} {token : Token}
    (read : classToken text = .ok (token, rest)) : ∃ front, text = front ++ ']' :: rest := by
  rw [classToken] at read
  generalize negated : (decide (text.head? = some '!') || decide (text.head? = some '^')) = marked
    at read
  cases class_ : readClass {} (if marked = true then text.tail else text) with
  | error e =>
    simp only [class_] at read
    cases read
  | ok sides =>
    simp only [class_] at read
    cases read
    obtain ⟨front, whole⟩ := exists_of_readClass class_
    cases marked with
    | false => exact ⟨front, whole⟩
    | true =>
      cases text with
      | nil => simp at negated
      | cons c text => exact ⟨c :: front, by simpa using whole⟩

theorem tokens_pushDirs {d : Draft} (filled : d.tokens ≠ []) (isLast : Bool) :
    ∃ token tokens, (d.pushDirs isLast).tokens = token :: tokens ∧ IsDirs token := by
  rw [Draft.pushDirs]
  split
  next tokens same => exact ⟨_, tokens, same, trivial⟩
  next tokens same => exact ⟨_, tokens, same, trivial⟩
  next token tokens same _ _ =>
    refine ⟨_, tokens, rfl, ?_⟩
    cases isLast <;> trivial
  next same => exact absurd same filled

/-- Two stars take a slash behind them, or nothing more. -/
theorem doubleStar_cases (d : Draft) (before : Option Char) (text : List Char) :
    (doubleStar d before text).2 = text ∨
      (text = '/' :: (doubleStar d before text).2 ∧ (doubleStar d before text).1.tokens ≠ []) := by
  rw [doubleStar.eq_def]
  simp only
  split
  next =>
    split
    · exact .inl rfl
    · exact .inr ⟨rfl, by simp [Draft.push]⟩
    · exact .inl rfl
  next filled =>
    split
    · exact .inl rfl
    · split
      · exact .inl rfl
      next rest =>
        obtain ⟨token, tokens, pushed, -⟩ := tokens_pushDirs (by simpa using filled) false
        exact .inr ⟨rfl, by simp [pushed]⟩
      · split
        · exact .inl rfl
        · exact .inl rfl

/-- Reading a text that is not at its end takes one piece of it and goes on behind it.  After a
    slash there is a token before. -/
theorem readAll_step {lenient : Bool} {fuel : Nat} {d result : Draft} {before : Option Char}
    {text : List Char} (more : text ≠ [])
    (read : readAll lenient (fuel + 1) d before text = .ok result) :
    ∃ d' piece last left, text = piece ++ left ∧ Piece piece ∧ piece.getLast? = some last ∧
      (last = '/' → d'.tokens ≠ []) ∧ readAll lenient fuel d' (some last) left = .ok result := by
  rw [readAll.eq_def] at read
  simp only at read
  split at read
  next => exact absurd rfl more
  next rest => exact ⟨_, ['?'], '?', rest, rfl, .single _, rfl, by simp, read⟩
  next rest =>
    rcases doubleStar_cases d before rest with nothing | ⟨slash, filled⟩
    · rw [nothing, if_neg (Nat.lt_irrefl _)] at read
      exact ⟨_, ['*', '*'], '*', rest, rfl, .stars, rfl, by simp, read⟩
    · have shorter : (doubleStar d before rest).2.length < rest.length := by
        conv_rhs => rw [slash]
        simp
      rw [if_pos shorter] at read
      refine ⟨_, ['*', '*', '/'], '/', _, ?_, .directories, rfl, fun _ => filled, read⟩
      conv_lhs => rw [slash]
      rfl
  next rest _ => exact ⟨_, ['*'], '*', rest, rfl, .single _, rfl, by simp, read⟩
  next rest =>
    split at read
    next token left class_ =>
      obtain ⟨front, rfl⟩ := exists_of_classToken class_
      exact ⟨_, '[' :: front ++ [']'], ']', left, by simp, .bracketed _, List.getLast?_concat,
        by simp, read⟩
    next =>
      split at read
      · exact ⟨_, ['['], '[', rest, rfl, .single _, rfl, by simp, read⟩
      · cases read
    next => cases read
  next rest => exact ⟨_, ['\x7b'], '\x7b', rest, rfl, .single _, rfl, by simp, read⟩
  next rest =>
    cases closed : d.closeGroup with
    | error e =>
      rw [closed] at read
      cases read
    | ok d' =>
      rw [closed] at read
      exact ⟨d', ['\x7d'], '\x7d', rest, rfl, .single _, rfl, by simp, read⟩
  next rest => exact ⟨_, [','], ',', rest, rfl, .single _, rfl, by simp, read⟩
  next rest =>
    cases rest with
    | nil => cases read
    | cons c rest => exact ⟨_, ['\\', c], c, rest, rfl, .escaped c, rfl, by simp [Draft.push], read⟩
  next c rest _ _ _ _ _ _ _ _ =>
    exact ⟨_, [c], c, rest, rfl, .single c, rfl, by simp [Draft.push], read⟩

/-! ## Reading a deep end -/

/-- The end of a pattern for all that is inside a directory. -/
def insideEnd : List Char := ['/', '*', '*', '/', '*']

/-- A piece takes nothing of the end, or just its first slash. -/
theorem Piece.splits {piece text left : List Char} (taken : Piece piece)
    (whole : text ++ insideEnd = piece ++ left) :
    (∃ rest, left = rest ++ insideEnd) ∨
      (left = ['*', '*', '/', '*'] ∧ piece.getLast? = some '/') := by
  cases List.append_eq_append_iff.1 whole with
  | inr before =>
    obtain ⟨rest, -, rfl⟩ := before
    exact .inl ⟨rest, rfl⟩
  | inl across =>
    obtain ⟨past, rfl, ends⟩ := across
    match past, ends with
    | [], ends => exact .inl ⟨[], by simpa using ends.symm⟩
    | [first], ends =>
      obtain ⟨rfl, rfl⟩ := List.cons.inj ends
      exact .inr ⟨rfl, by simp⟩
    | first :: second :: past, ends =>
      -- The piece would hold a slash with a star behind it.
      obtain ⟨rfl, rfl, rest⟩ : first = '/' ∧ second = '*' ∧ ['*', '/', '*'] = past ++ left := by
        simpa [insideEnd, eq_comm] using ends
      exfalso
      generalize held : text ++ '/' :: '*' :: past = piece at taken
      cases taken with
      | single c => cases text <;> simp at held
      | escaped c => rcases text with _ | ⟨_, _ | ⟨_, text⟩⟩ <;> simp at held
      | stars => rcases text with _ | ⟨_, _ | ⟨_, text⟩⟩ <;> simp at held
      | directories => rcases text with _ | ⟨_, _ | ⟨_, _ | ⟨_, text⟩⟩⟩ <;> simp at held
      | bracketed front =>
        have within : ']' ∈ '*' :: past := by
          apply List.mem_of_getLast?
          simpa using congrArg List.getLast? held
        have inEnd : ']' ∈ '*' :: (past ++ left) := List.mem_append_left left within
        rw [← rest] at inEnd
        simp at inEnd

theorem tokens_of_readAll_end {lenient : Bool} {fuel : Nat} {d result : Draft}
    (filled : d.tokens ≠ []) (enough : 3 ≤ fuel)
    (read : readAll lenient fuel d (some '/') ['*', '*', '/', '*'] = .ok result) :
    ∃ token tokens, result.tokens = .many :: token :: tokens ∧ IsDirs token := by
  obtain ⟨fuel, rfl⟩ := Nat.exists_eq_add_of_le' enough
  obtain ⟨token, tokens, pushed, dirs⟩ := tokens_pushDirs filled false
  -- The stars follow a slash and a slash follows them, so they stand for directories.
  have stars : doubleStar d (some '/') ['/', '*'] = (d.pushDirs false, ['*']) := by
    simp [doubleStar.eq_def, filled]
  simp only [readAll, stars, Draft.push] at read
  cases read
  exact ⟨token, tokens, by rw [pushed], dirs⟩

theorem exists_of_readAll {lenient : Bool} {fuel : Nat} {d result : Draft} {before : Option Char}
    {text : List Char} (enough : (text ++ insideEnd).length < fuel)
    (read : readAll lenient fuel d before (text ++ insideEnd) = .ok result) :
    ∃ token tokens, result.tokens = .many :: token :: tokens ∧ IsDirs token := by
  induction fuel generalizing d before text with
  | zero => omega
  | succ fuel ih =>
    obtain ⟨d', piece, last, left, whole, taken, isLast, filled, read⟩ :=
      readAll_step (by simp [insideEnd]) read
    have shorter : left.length < fuel := by
      have longer := List.length_pos_iff.2 taken.ne_nil
      rw [whole, List.length_append] at enough
      omega
    -- The end stays whole for the next step, or its slash has been read and the rest is plain.
    rcases taken.splits whole with ⟨rest, rfl⟩ | ⟨rfl, slash⟩
    · exact ih shorter read
    · obtain rfl : last = '/' := by simpa [isLast] using slash
      exact tokens_of_readAll_end (filled rfl) (by simp at shorter; omega) read

theorem deep_of_parse {lenient : Bool} {pattern : String} {glob : Glob} {text : List Char}
    (ends : pattern.toList = text ++ insideEnd) (read : parse lenient pattern = .ok glob) :
    Deep glob := by
  rw [parse] at read
  cases all : readAll lenient (pattern.toList.length + 1) {} none pattern.toList with
  | error e =>
    rw [all] at read
    cases read
  | ok d =>
    simp only [all] at read
    obtain ⟨token, tokens, last, dirs⟩ :=
      exists_of_readAll (by rw [← ends]; exact Nat.lt_succ_self _) (ends ▸ all)
    change (if d.groups.isEmpty then Except.ok d.tokens.reverse else _) = _ at read
    split at read
    · cases read
      exact ⟨tokens.reverse, token, by simp [last], dirs⟩
    · cases read

end Glob

end LoadBearing

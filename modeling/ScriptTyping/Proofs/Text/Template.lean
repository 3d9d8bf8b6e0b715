import Mathlib.Data.List.Infix
import Mathlib.Logic.Function.Basic
import ScriptTyping.Text.Template

/-!
# Messages and their places

A text is cut into its places and the characters outside of them; two places never overlap.  To fill
a template at once is to cut it and to write an argument for every place that has one.  The
arguments are filled in one after the other instead, each into all places of the text that the
earlier ones left.  Both give the same, for the first arguments of a list whatever their number,
exactly when no argument completes a place of a later one, inside of the argument or together with
the text around it.

## Main definitions

* `Template.Piece`, `Template.pieces` — a text cut into places and other characters.
* `Template.occurrences` — the number of places with a given number.
* `Template.fillAtOnce` — the arguments filled in at once.

## Main results

* `Template.pieces_append_place` — a place in a text is a place of the text.
* `Template.replaceAll_eq_spell` — a replacement fills in one argument.
* `Template.replaceAll_spell_iff` — the next argument.
* `Template.forall_fill_take_eq_iff` — when filling one after the other is filling at once.
-/

namespace ScriptTyping.Template

/-- A place, or a character outside of all places. -/
inductive Piece where
  | char (c : Char)
  | place (i : Nat)
  deriving DecidableEq, Repr

/-- The number of the place with which a text begins. -/
def placeAt? (text : List Char) : Option Nat :=
  let i := Nat.ofDigitChars 10 (text.tail.takeWhile Char.isDigit) 0
  if (place i).isPrefixOf text then some i else none

/-- The pieces of a text; the first `skip` characters belong to a place that is already read. -/
def piecesFrom : Nat → List Char → List Piece
  | _, [] => []
  | skip + 1, _ :: text => piecesFrom skip text
  | 0, c :: text =>
    match placeAt? (c :: text) with
    | some i => .place i :: piecesFrom ((place i).length - 1) text
    | none => .char c :: piecesFrom 0 text

/-- The pieces of a text, in order. -/
def pieces (text : List Char) : List Piece := piecesFrom 0 text

/-- The characters of a piece, with the arguments at the places that have one. -/
def Piece.spell (args : Nat → Option (List Char)) : Piece → List Char
  | char c => [c]
  | place i => (args i).getD (Template.place i)

/-- The characters of a list of pieces, with the arguments at the places that have one. -/
def spell (args : Nat → Option (List Char)) (ps : List Piece) : List Char :=
  ps.flatMap (Piece.spell args)

/-- The number of places of the text with the number `i`. -/
def occurrences (i : Nat) (text : List Char) : Nat := (pieces text).count (.place i)

/-- The template with its arguments filled in, all at once. -/
def fillAtOnce (template : String) (args : List String) : String :=
  String.ofList (spell (fun i => args[i]?.map String.toList) (pieces template.toList))

variable {i j k : Nat} {text u v : List Char} {c : Char}

/-! ### Places -/

theorem isDigit_of_mem_toDigits (h : c ∈ Nat.toDigits 10 i) : c.isDigit = true :=
  Nat.isDigit_of_mem_toDigits (by decide) (by decide) h

/-- A place has one opening brace, its first character. -/
theorem open_notMem_tail_place : '\x7b' ∉ (place i).tail := by
  intro h
  rw [place, List.tail_cons, List.mem_append] at h
  rcases h with h | h
  · exact absurd (isDigit_of_mem_toDigits h) (by decide)
  · exact absurd (List.mem_singleton.mp h) (by decide)

theorem place_eq_cons : place i = '\x7b' :: (place i).tail := rfl

theorem place_eq_concat : place i = (place i).dropLast ++ ['\x7d'] := by
  rw [place, ← List.cons_append, List.dropLast_concat]

/-- The number of a place is read off. -/
theorem placeAt?_eq_some : placeAt? text = some i ↔ place i <+: text := by
  constructor
  · intro h
    rw [placeAt?] at h
    split at h
    · rename_i hplace
      obtain rfl := Option.some.inj h
      exact List.isPrefixOf_iff_prefix.mp hplace
    · cases h
  · rintro ⟨v, rfl⟩
    have hdigits : (place i ++ v).tail.takeWhile Char.isDigit = Nat.toDigits 10 i := by
      rw [place, List.cons_append, List.tail_cons, List.append_assoc,
        List.takeWhile_append_of_pos fun c hc => isDigit_of_mem_toDigits hc, List.singleton_append,
        List.takeWhile_cons_of_neg (by decide), List.append_nil]
    rw [placeAt?, hdigits, Nat.ofDigitChars_ten_toDigits,
      if_pos (List.isPrefixOf_iff_prefix.mpr (List.prefix_append _ _))]

theorem placeAt?_eq_none : placeAt? text = none ↔ ∀ i, ¬place i <+: text := by
  rw [Option.eq_none_iff_forall_ne_some]
  exact forall_congr' fun i => not_congr placeAt?_eq_some

theorem place_prefix_place_append : place k <+: place i ++ v ↔ k = i := by
  rw [← placeAt?_eq_some, placeAt?_eq_some.mpr (List.prefix_append _ _), Option.some.injEq, eq_comm]

/-- A place that begins before a seam ends before it, or its last part begins the text behind the
seam. -/
theorem place_prefix_append (h : place i <+: c :: text ++ v) :
    place i <+: c :: text ∨ ∃ rest, rest ≠ [] ∧ rest <+: v ∧ rest <:+ (place i).tail := by
  obtain ⟨w, hw⟩ := h
  obtain ⟨a, ha, -⟩ | ⟨rest, hrest, hv⟩ := List.append_eq_append_iff.mp hw
  · exact .inl ⟨a, ha.symm⟩
  · rcases eq_or_ne rest [] with rfl | hne
    · exact .inl ⟨[], by rw [hrest, List.append_nil, List.append_nil]⟩
    · refine .inr ⟨rest, hne, ⟨w, hv.symm⟩, text, ?_⟩
      rw [hrest, List.cons_append, List.tail_cons]

/-! ### Pieces -/

section Spell

variable {args : Nat → Option (List Char)} {p : Piece} {ps qs : List Piece}

@[simp]
theorem spell_cons : spell args (p :: ps) = p.spell args ++ spell args ps := List.flatMap_cons

@[simp]
theorem spell_append : spell args (ps ++ qs) = spell args ps ++ spell args qs :=
  List.flatMap_append

@[simp]
theorem spell_map_char (text : List Char) : spell args (text.map .char) = text := by
  rw [spell, List.flatMap_map]
  exact List.flatMap_singleton' text

end Spell

/-- A text is empty, or it begins with a place or with a character outside of all places. -/
@[elab_as_elim]
theorem cut_induction {P : List Char → Prop} (nil : P [])
    (char : ∀ c text, (∀ i, ¬place i <+: c :: text) → P text → P (c :: text))
    (place : ∀ i text, P text → P (place i ++ text)) (text : List Char) : P text := by
  induction h : text.length using Nat.strongRecOn generalizing text with
  | ind n ih =>
    cases text with
    | nil => exact nil
    | cons c text =>
      rw [List.length_cons] at h
      cases hplace : placeAt? (c :: text) with
      | none => exact char c text (placeAt?_eq_none.mp hplace) (ih _ (by omega) _ rfl)
      | some i =>
        obtain ⟨v, hv⟩ := placeAt?_eq_some.mp hplace
        have hlength := congrArg List.length hv
        rw [place_eq_cons, List.length_append, List.length_cons, List.length_cons] at hlength
        rw [← hv]
        exact place i v (ih _ (by omega) _ rfl)

theorem pieces_char (h : ∀ i, ¬Template.place i <+: c :: text) :
    pieces (c :: text) = .char c :: pieces text := by
  rw [pieces, piecesFrom, placeAt?_eq_none.mpr h]
  rfl

theorem piecesFrom_append : piecesFrom u.length (u ++ v) = pieces v := by
  induction u with
  | nil => rfl
  | cons c u ih => exact ih

theorem pieces_place : pieces (place i ++ v) = .place i :: pieces v := by
  rw [pieces, place_eq_cons, List.cons_append, piecesFrom, ← List.cons_append, ← place_eq_cons,
    placeAt?_eq_some.mpr (List.prefix_append _ _)]
  have htail : (place i).length - 1 = (place i).tail.length := List.length_tail.symm
  simp only [htail, piecesFrom_append]

/-- The pieces together are the text. -/
theorem spell_pieces (text : List Char) : spell (fun _ => none) (pieces text) = text := by
  induction text using cut_induction with
  | nil => rfl
  | char c text h ih =>
    rw [pieces_char h, spell_cons, ih]
    rfl
  | place i text ih =>
    rw [pieces_place, spell_cons, ih]
    rfl

/-- What stands before a place does not matter for the place. -/
theorem pieces_append_place : pieces (u ++ (place j ++ v)) = pieces u ++ .place j :: pieces v := by
  induction u using cut_induction with
  | nil => exact pieces_place
  | char c u h ih =>
    rw [pieces_char h, List.cons_append, List.cons_append, pieces_char, ih]
    intro i hi
    obtain hi | ⟨rest, hne, hrest, htail⟩ := place_prefix_append hi
    · exact h i hi
    · obtain ⟨d, rest, rfl⟩ := List.exists_cons_of_ne_nil hne
      rw [place_eq_cons, List.cons_append, List.cons_prefix_cons] at hrest
      obtain ⟨rfl, -⟩ := hrest
      exact open_notMem_tail_place (htail.mem (List.mem_cons_self ..))
  | place i u ih =>
    rw [List.append_assoc, pieces_place, pieces_place, List.cons_append, ih]

/-- No place ends behind a seam without a closing brace after it. -/
theorem pieces_append_of_close_notMem (h : '\x7d' ∉ v) :
    pieces (u ++ v) = pieces u ++ v.map .char := by
  induction u using cut_induction with
  | nil =>
    induction v with
    | nil => rfl
    | cons c v ih =>
      rw [List.nil_append, pieces_char, ← List.nil_append v, ih fun hv => h (.tail _ hv)]
      · rfl
      · intro i hi
        refine h (hi.mem ?_)
        rw [place_eq_concat]
        exact List.mem_append_right _ (List.mem_singleton_self _)
  | char c u hc ih =>
    rw [pieces_char hc, List.cons_append, pieces_char, ih, List.cons_append]
    intro i hi
    obtain hi | ⟨rest, hne, hrest, htail⟩ := place_prefix_append hi
    · exact hc i hi
    · obtain ⟨w, hw⟩ := htail.trans (List.tail_suffix _)
      have hlast : '\x7d' = rest.getLast hne := by
        have := congrArg List.getLast? (hw.trans place_eq_concat)
        rw [List.getLast?_append_of_ne_nil _ hne, List.getLast?_concat,
          List.getLast?_eq_some_getLast hne, Option.some.injEq] at this
        exact this.symm
      exact h (hrest.mem (hlast ▸ List.getLast_mem hne))
  | place i u ih => rw [List.append_assoc, pieces_place, pieces_place, ih, List.cons_append]

/-- No place begins before a seam without an opening brace before it. -/
theorem pieces_append_of_open_notMem (h : '\x7b' ∉ u) :
    pieces (u ++ v) = u.map .char ++ pieces v := by
  induction u with
  | nil => rfl
  | cons c u ih =>
    rw [List.cons_append, pieces_char, ih fun hu => h (.tail _ hu)]
    · rfl
    · intro i hi
      rw [place_eq_cons, List.cons_prefix_cons] at hi
      exact h (hi.1 ▸ List.mem_cons_self ..)

theorem pieces_of_open_notMem (h : '\x7b' ∉ text) : pieces text = text.map .char := by
  rw [← List.append_nil text, pieces_append_of_open_notMem h, pieces, piecesFrom, List.append_nil,
    List.append_nil]

/-- The places of a text are its infixes that are places. -/
theorem place_mem_pieces : Piece.place i ∈ pieces text ↔ place i <:+: text := by
  constructor
  · intro h
    obtain ⟨l, r, hlr⟩ := List.append_of_mem h
    refine ⟨spell (fun _ => none) l, spell (fun _ => none) r, ?_⟩
    rw [← spell_pieces text, hlr, spell_append, spell_cons, List.append_assoc]
    rfl
  · rintro ⟨l, r, rfl⟩
    rw [List.append_assoc, pieces_append_place]
    exact List.mem_append_right _ (List.mem_cons_self ..)

/-! ### One replacement -/

variable {a : List Char}

theorem replaceAll_char (h : ¬place k <+: c :: text) :
    replaceAll (place k) a (c :: text) = c :: replaceAll (place k) a text := by
  rw [replaceAll, replaceFrom, if_neg (mt List.isPrefixOf_iff_prefix.mp h), ← replaceAll]

theorem replaceFrom_append :
    replaceFrom (place k) a u.length (u ++ v) = replaceAll (place k) a v := by
  induction u with
  | nil => rfl
  | cons c u ih => exact ih

theorem replaceAll_append_of_open_notMem (h : '\x7b' ∉ u) :
    replaceAll (place k) a (u ++ v) = u ++ replaceAll (place k) a v := by
  induction u with
  | nil => rfl
  | cons c u ih =>
    rw [List.cons_append, replaceAll_char, ih fun hu => h (.tail _ hu),
      List.cons_append]
    intro hk
    rw [place_eq_cons, List.cons_prefix_cons] at hk
    exact h (hk.1 ▸ List.mem_cons_self ..)

/-- At a place, the replacement looks at its number only. -/
theorem replaceAll_place : replaceAll (place k) a (place i ++ v) =
    (if i = k then a else place i) ++ replaceAll (place k) a v := by
  split
  · rename_i hik
    subst hik
    have htail : (place i).length - 1 = (place i).tail.length := List.length_tail.symm
    rw [replaceAll]
    conv_lhs => rw [place_eq_cons]
    rw [List.cons_append, replaceFrom, ← List.cons_append, ← place_eq_cons,
      if_pos (List.isPrefixOf_iff_prefix.mpr (List.prefix_append _ _)), htail, replaceFrom_append]
  · rename_i hik
    have hk : ¬place k <+: '\x7b' :: ((place i).tail ++ v) := fun hk =>
      hik (place_prefix_place_append.mp hk).symm
    rw [place_eq_cons (i := i), List.cons_append, replaceAll_char hk,
      replaceAll_append_of_open_notMem open_notMem_tail_place, List.cons_append]

/-- Replacing the places with one number writes the argument for them. -/
theorem replaceAll_eq_spell (text : List Char) : replaceAll (place k) a text =
    spell (Function.update (fun _ => none) k (some a)) (pieces text) := by
  induction text using cut_induction with
  | nil => rfl
  | char c text h ih =>
    rw [replaceAll_char (h k), pieces_char h, spell_cons, ih]
    rfl
  | place i text ih =>
    rw [replaceAll_place, pieces_place, spell_cons, ih]
    congr 1
    simp only [Piece.spell, Function.update_apply]
    split <;> rfl

theorem replaceAll_append_place : replaceAll (place k) a (u ++ (place k ++ v)) =
    replaceAll (place k) a u ++ (a ++ replaceAll (place k) a v) := by
  simp only [replaceAll_eq_spell, pieces_append_place, spell_append, spell_cons, Piece.spell,
    Function.update_self, Option.getD_some]

theorem replaceAll_append_of_close_notMem (h : '\x7d' ∉ v) :
    replaceAll (place k) a (u ++ v) = replaceAll (place k) a u ++ v := by
  rw [replaceAll_eq_spell, pieces_append_of_close_notMem h, spell_append, spell_map_char,
    ← replaceAll_eq_spell]

theorem occurrences_append_place :
    occurrences k (u ++ (place k ++ v)) = occurrences k u + (occurrences k v + 1) := by
  rw [occurrences, pieces_append_place, List.count_append, List.count_cons_self]
  rfl

/-! ### One more argument -/

section Update

variable {args : Nat → Option (List Char)} {ps : List Piece}

/-- The pieces before, between and behind the places with a given number. -/
@[elab_as_elim]
theorem split_induction (k : Nat) {P : List Piece → Prop} (last : ∀ l, .place k ∉ l → P l)
    (next : ∀ l r, .place k ∉ l → P r → P (l ++ .place k :: r)) (ps : List Piece) : P ps := by
  induction h : ps.length using Nat.strongRecOn generalizing ps with
  | ind n ih =>
    by_cases hmem : Piece.place k ∈ ps
    · obtain ⟨l, r, rfl, hl⟩ := List.eq_append_cons_of_mem hmem
      rw [List.length_append, List.length_cons] at h
      exact next l r hl (ih _ (by omega) r rfl)
    · exact last ps hmem

theorem spell_update_of_notMem (h : .place k ∉ ps) :
    spell (Function.update args k (some a)) ps = spell args ps := by
  refine List.flatMap_congr fun p hp => ?_
  cases p with
  | char => rfl
  | place i =>
    have hne : i ≠ k := fun hik => h (hik ▸ hp)
    rw [Piece.spell, Piece.spell, Function.update_of_ne hne]

/-- The first place with the number takes the argument. -/
theorem spell_update_split {l r : List Piece} (hl : .place k ∉ l) :
    spell (Function.update args k (some a)) (l ++ .place k :: r) =
      spell args l ++ (a ++ spell (Function.update args k (some a)) r) := by
  rw [spell_append, spell_cons, spell_update_of_notMem hl, Piece.spell, Function.update_self,
    Option.getD_some]

theorem count_split {l r : List Piece} (hl : .place k ∉ l) :
    (l ++ .place k :: r).count (.place k) = r.count (.place k) + 1 := by
  rw [List.count_append, List.count_cons_self, List.count_eq_zero_of_not_mem hl, Nat.zero_add]

variable (hk : args k = none)

include hk

/-- A place without argument stands. -/
theorem spell_split {l r : List Piece} :
    spell args (l ++ .place k :: r) = spell args l ++ (place k ++ spell args r) := by
  rw [spell_append, spell_cons, Piece.spell, hk, Option.getD_none]

/-- Each place that gets the argument instead of standing changes the length alike. -/
theorem length_spell_update (ps : List Piece) :
    (spell (Function.update args k (some a)) ps).length +
        ps.count (.place k) * (place k).length =
      (spell args ps).length + ps.count (.place k) * a.length := by
  induction ps using split_induction k with
  | last l hl =>
    rw [spell_update_of_notMem hl, List.count_eq_zero_of_not_mem hl, Nat.zero_mul, Nat.zero_mul]
  | next l r hl ih =>
    rw [spell_update_split hl, spell_split hk, count_split hl]
    simp only [List.length_append, Nat.add_mul, Nat.one_mul]
    omega

/-- An argument for places that stand shows, unless it is the place or there are none. -/
theorem spell_update_eq_iff : spell (Function.update args k (some a)) ps = spell args ps ↔
    a = place k ∨ .place k ∉ ps := by
  constructor
  · intro h
    by_contra! hnot
    obtain ⟨hne, hmem⟩ := hnot
    obtain ⟨l, r, rfl, hl⟩ := List.eq_append_cons_of_mem hmem
    rw [spell_update_split hl, spell_split hk, List.append_cancel_left_eq] at h
    have hlength := length_spell_update hk (a := a) r
    have htotal := congrArg List.length h
    rw [List.length_append, List.length_append] at htotal
    have hsame : (r.count (.place k) + 1) * a.length =
        (r.count (.place k) + 1) * (place k).length := by
      rw [Nat.add_mul, Nat.add_mul]
      omega
    exact hne (List.append_inj_left h (Nat.eq_of_mul_eq_mul_left (Nat.succ_pos _) hsame))
  · rintro (rfl | hmem)
    · refine List.flatMap_congr fun p _ => ?_
      cases p with
      | char => rfl
      | place i =>
        rw [Piece.spell, Piece.spell, Function.update_apply]
        split
        · rename_i hik
          rw [hik, hk]
          rfl
        · rfl
    · exact spell_update_of_notMem hmem

/-- The places that stand are places of the text. -/
theorem count_le_occurrences_spell (ps : List Piece) :
    ps.count (.place k) ≤ occurrences k (spell args ps) := by
  induction ps using split_induction k with
  | last l hl => exact (List.count_eq_zero_of_not_mem hl).trans_le (Nat.zero_le _)
  | next l r hl ih =>
    rw [spell_split hk, occurrences_append_place, count_split hl]
    omega

omit hk in
theorem length_replaceAll (text : List Char) :
    (replaceAll (place k) a text).length + occurrences k text * (place k).length =
      text.length + occurrences k text * a.length := by
  have h := @length_spell_update k a (fun _ => none) rfl (pieces text)
  rwa [← replaceAll_eq_spell, spell_pieces] at h

omit hk in
theorem replaceAll_eq_self_iff :
    replaceAll (place k) a text = text ↔ a = place k ∨ occurrences k text = 0 := by
  rw [replaceAll_eq_spell, occurrences, List.count_eq_zero]
  conv_lhs => rhs; rw [← spell_pieces text]
  exact spell_update_eq_iff rfl

/-- Where no place comes up in the text, the next argument is filled in. -/
theorem replaceAll_spell_of_occurrences {ps : List Piece}
    (h : occurrences k (spell args ps) = ps.count (.place k)) :
    replaceAll (place k) a (spell args ps) = spell (Function.update args k (some a)) ps := by
  induction ps using split_induction k with
  | last l hl =>
    rw [List.count_eq_zero_of_not_mem hl] at h
    rw [spell_update_of_notMem hl, replaceAll_eq_self_iff.mpr (.inr h)]
  | next l r hl ih =>
    have hle := count_le_occurrences_spell hk r
    rw [spell_split hk, occurrences_append_place, count_split hl] at h
    have hleft : replaceAll (place k) a (spell args l) = spell args l :=
      replaceAll_eq_self_iff.mpr (.inr (by omega))
    rw [spell_split hk, spell_update_split hl, replaceAll_append_place, hleft, ih (by omega)]

/-- Where the next argument is filled in, no place came up in the text, unless the argument is the
place itself. -/
theorem occurrences_spell_of_replaceAll {ps : List Piece} (ha : a ≠ place k)
    (h : replaceAll (place k) a (spell args ps) = spell (Function.update args k (some a)) ps) :
    occurrences k (spell args ps) = ps.count (.place k) := by
  by_cases hlength : a.length = (place k).length
  · -- The argument is as long as the place, so the parts of both texts are as long, too.
    induction ps using split_induction k with
    | last l hl =>
      rw [spell_update_of_notMem hl] at h
      rw [(replaceAll_eq_self_iff.mp h).resolve_left ha, List.count_eq_zero_of_not_mem hl]
    | next l r hl ih =>
      rw [spell_split hk, spell_update_split hl, replaceAll_append_place] at h
      have hsame : (replaceAll (place k) a (spell args l)).length = (spell args l).length := by
        have hleft := length_replaceAll (k := k) (a := a) (spell args l)
        rw [hlength] at hleft
        exact Nat.add_right_cancel hleft
      obtain ⟨hleft, hrest⟩ := List.append_inj h hsame
      rw [spell_split hk, occurrences_append_place,
        (replaceAll_eq_self_iff.mp hleft).resolve_left ha, ih (List.append_cancel_left hrest),
        count_split hl, Nat.zero_add]
  · -- Both texts have one length, and each place that is replaced counts.
    have hreplaced := length_replaceAll (k := k) (a := a) (spell args ps)
    have hfilled := length_spell_update hk (a := a) ps
    obtain ⟨d, hd⟩ := Nat.exists_eq_add_of_le (count_le_occurrences_spell hk ps)
    rw [h, hd, Nat.add_mul, Nat.add_mul] at hreplaced
    have hproduct : d * a.length = d * (place k).length := by omega
    rcases Nat.eq_zero_or_pos d with rfl | hpos
    · rw [hd, Nat.add_zero]
    · exact absurd (Nat.eq_of_mul_eq_mul_left hpos hproduct) hlength

/-- Replacing the places of the text that the other arguments leave fills in one more argument
exactly when the argument is the place itself or the text has no other places of its number than the
pieces. -/
theorem replaceAll_spell_iff (ps : List Piece) :
    replaceAll (place k) a (spell args ps) = spell (Function.update args k (some a)) ps ↔
      a = place k ∨ occurrences k (spell args ps) = ps.count (.place k) := by
  constructor
  · intro h
    by_cases ha : a = place k
    · exact .inl ha
    · exact .inr (occurrences_spell_of_replaceAll hk ha h)
  · rintro (rfl | h)
    · rw [replaceAll_eq_self_iff.mpr (.inl rfl), (spell_update_eq_iff hk).mpr (.inl rfl)]
    · exact replaceAll_spell_of_occurrences hk h

end Update

/-! ### All arguments -/

theorem fillFrom_concat (texts : List (List Char)) :
    fillFrom i (texts ++ [a]) text =
      replaceAll (place (i + texts.length)) a (fillFrom i texts text) := by
  induction texts generalizing i text with
  | nil => rfl
  | cons b texts ih =>
    rw [List.cons_append, fillFrom, ih, fillFrom, List.length_cons, Nat.add_right_comm,
      Nat.add_assoc]

variable {template arg : String} {args : List String}

/-- The next argument replaces its places in the text that the earlier ones left. -/
theorem toList_fill_take_succ (h : args[k]? = some arg) :
    (fill template (args.take (k + 1))).toList =
      replaceAll (place k) arg.toList (fill template (args.take k)).toList := by
  have hk : k < args.length := (List.getElem?_eq_some_iff.mp h).1
  have htake : args.take (k + 1) = args.take k ++ [arg] := by
    rw [List.take_add_one, h]
    rfl
  rw [fill, fill, String.toList_ofList, String.toList_ofList, htake, List.map_append, List.map_cons,
    List.map_nil, fillFrom_concat, List.length_map, List.length_take_of_le hk.le, Nat.zero_add]

/-- The next argument is filled in at its places in the template. -/
theorem toList_fillAtOnce_take_succ (h : args[k]? = some arg) :
    (fillAtOnce template (args.take (k + 1))).toList =
      spell (Function.update (fun i => (args.take k)[i]?.map String.toList) k (some arg.toList))
        (pieces template.toList) := by
  rw [fillAtOnce, String.toList_ofList]
  congr 1
  funext i
  rw [Function.update_apply, List.getElem?_take, List.getElem?_take]
  rcases Nat.lt_trichotomy i k with hlt | rfl | hgt
  · rw [if_pos (by omega), if_neg hlt.ne, if_pos hlt]
  · rw [if_pos (Nat.lt_succ_self i), if_pos rfl, h]
    rfl
  · rw [if_neg (by omega), if_neg hgt.ne', if_neg (by omega)]

/-- Filling in the first arguments of a list one after the other is filling them in at once, for any
number of them, exactly when each argument is its place or finds as many places in the text that the
earlier ones leave as the template has. -/
theorem forall_fill_take_eq_iff (template : String) (args : List String) :
    (∀ n ≤ args.length, fill template (args.take n) = fillAtOnce template (args.take n)) ↔
      ∀ k arg, args[k]? = some arg → arg.toList = place k ∨
        occurrences k (fillAtOnce template (args.take k)).toList =
          occurrences k template.toList := by
  have hstep {k : Nat} {arg : String} (h : args[k]? = some arg)
      (hfill : fill template (args.take k) = fillAtOnce template (args.take k)) :
      fill template (args.take (k + 1)) = fillAtOnce template (args.take (k + 1)) ↔
        arg.toList = place k ∨
          occurrences k (fillAtOnce template (args.take k)).toList =
            occurrences k template.toList := by
    have hnone : (args.take k)[k]?.map String.toList = none := by
      rw [List.getElem?_take, if_neg (Nat.lt_irrefl k)]
      rfl
    rw [← String.toList_inj, toList_fill_take_succ h, toList_fillAtOnce_take_succ h, hfill]
    conv_lhs => lhs; rw [fillAtOnce, String.toList_ofList]
    conv_rhs => rw [fillAtOnce, String.toList_ofList]
    exact replaceAll_spell_iff hnone _
  constructor
  · intro h k arg hk
    have hlt : k < args.length := (List.getElem?_eq_some_iff.mp hk).1
    exact (hstep hk (h k hlt.le)).mp (h (k + 1) hlt)
  · intro h n hn
    induction n with
    | zero => exact (congrArg String.ofList (spell_pieces template.toList)).symm
    | succ n ih =>
      have hget := List.getElem?_eq_getElem hn
      exact (hstep hget (ih (by omega))).mpr (h n _ hget)

/-- An argument may complete a place of the next one with braces of the template. -/
example : fill "\x7b\x7b0\x7d\x7d" ["1", "B"] = "B" ∧
    fillAtOnce "\x7b\x7b0\x7d\x7d" ["1", "B"] = "\x7b1\x7d" := by decide

end ScriptTyping.Template

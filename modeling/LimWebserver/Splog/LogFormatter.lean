import LimWebserver.Net.Http.Request
import Mathlib.Data.List.TakeWhile

namespace LimWebserver.LogFormatter

open Http

/-!
# Splog — `LogFormatter::init`: the items of a pattern

Two states take turns: a run of ordinary characters as far as the next `%`, and the character that
follows it.  A `%` at the very end of the pattern leaves the loop before its character has been
looked for.

* `FormatItem`, `format_item_map` — the items and the letters of the directives;
* `scan`, `create`, `initLoop`, `init` — the code;
* `Token`, `tokens` — the pattern as it is to be read, `tokens_source` — all of it;
* `shape_induction` — a pattern as runs and directives; `initLoop_eq` — the loop on it;
* `right_iff` — the patterns that become the items of their tokens.
-/

inductive FormatItem where
  | StringFormatItem (str : Bytes)
  | LevelFormatItem
  | FileNameFormatItem
  | LineFormatItem
  | DateTimeFormatItem
  | ThreadIdFormatItem
  | ThreadNameFormatItem
  | MessageFormatItem
  | NewLineFormatItem
  | PercentSignFormatItem
  | TabFormatItem
  | ElapseFormatItem
  | NameFormatItem
  deriving DecidableEq, Repr

open FormatItem

def format_item_map : List (Char × FormatItem) :=
  [('p', LevelFormatItem), ('f', FileNameFormatItem), ('l', LineFormatItem),
    ('d', DateTimeFormatItem), ('t', ThreadIdFormatItem), ('N', ThreadNameFormatItem),
    ('m', MessageFormatItem), ('n', NewLineFormatItem), ('%', PercentSignFormatItem),
    ('T', TabFormatItem), ('r', ElapseFormatItem), ('c', NameFormatItem)]

/-- `format_item_map.find(c)` -/
def find (c : UInt8) : Option FormatItem :=
  (format_item_map.find? fun e => e.1.toNat.toUInt8 = c).map Prod.snd

inductive PARSE_STATUS where
  | SCAN_STATUS
  | CREATE_STATUS
  deriving DecidableEq, Repr

/-- The formatter and the variables of the loop. -/
structure Scanner where
  STATUS : PARSE_STATUS := .SCAN_STATUS
  i : Nat := 0
  m_items : List FormatItem := []
  m_error : Bool := false
  deriving DecidableEq, Repr

variable (m_pattern : Bytes)

/-- The case `SCAN_STATUS`, with the `i++` behind it. -/
def scan (s : Scanner) : Scanner :=
  let str_begin := s.i
  let str_end := s.i + ((m_pattern.drop s.i).takeWhile (· ≠ 37)).length
  { s with
    STATUS := if str_end < m_pattern.length then .CREATE_STATUS else .SCAN_STATUS
    i := str_end + 1
    m_items := s.m_items ++
      [StringFormatItem ((m_pattern.drop str_begin).take (str_end - str_begin))] }

/-- The case `CREATE_STATUS` for the character `m_pattern[i]`. -/
def create (s : Scanner) (c : UInt8) : Scanner :=
  match find c with
  | none =>
    { STATUS := .SCAN_STATUS
      i := s.i + 1
      m_items := s.m_items ++ [StringFormatItem (chars "<error format>")]
      m_error := true }
  | some item => { s with STATUS := .SCAN_STATUS, i := s.i + 1, m_items := s.m_items ++ [item] }

/-- The loop of `init`; none if it has not ended after so many rounds. -/
def initLoop : Nat → Scanner → Option Scanner
  | 0, _ => none
  | fuel + 1, s =>
    match m_pattern[s.i]? with
    | none => some s
    | some c =>
      match s.STATUS with
      | .SCAN_STATUS => initLoop fuel (scan m_pattern s)
      | .CREATE_STATUS => initLoop fuel (create s c)

/-- `init()` of a new formatter. -/
def init : Option Scanner := initLoop m_pattern (m_pattern.length + 1) {}

/-! ### The pattern as it is to be read -/

inductive Token where
  /-- a run of characters other than `%` -/
  | literal (text : Bytes)
  /-- a `%` and the character behind it -/
  | directive (c : UInt8)
  /-- a `%` with nothing behind it -/
  | dangling
  deriving DecidableEq, Repr

namespace Token

/-- The characters of the pattern that belong to a token. -/
def source : Token → Bytes
  | literal text => text
  | directive c => [37, c]
  | dangling => [37]

def item : Token → Option FormatItem
  | literal text => some (StringFormatItem text)
  | directive c => some ((find c).getD (StringFormatItem (chars "<error format>")))
  | dangling => none

/-- The `%` is not followed by a known letter. -/
def wrong : Token → Bool
  | literal _ => false
  | directive c => (find c).isNone
  | dangling => true

end Token

/-- The tokens of a pattern, from the left to the right. -/
def tokens : Bytes → List Token
  | [] => []
  | b :: rest =>
    if b = 37 then
      match rest with
      | [] => [.dangling]
      | c :: rest => .directive c :: tokens rest
    else .literal (b :: rest.takeWhile (· ≠ 37)) :: tokens (rest.dropWhile (· ≠ 37))
termination_by s => s.length
decreasing_by
  · simp +arith
  · exact Nat.lt_succ_of_le (List.dropWhile_sublist _).length_le

/-- **What `init` is to do**: it ends, there is one item for each token, leaving aside empty
    literals, and the error is set if a token is wrong. -/
def Right : Prop :=
  ∃ s, init m_pattern = some s ∧
    (s.m_items.filter (· ≠ StringFormatItem [])).map some = (tokens m_pattern).map Token.item ∧
    s.m_error = (tokens m_pattern).any Token.wrong

/-! ### Runs and directives -/

variable {lit rest : Bytes} {c : UInt8}

/-- A pattern is a run, or a run and a `%`, or a run and a directive in front of another pattern. -/
theorem shape_induction {P : Bytes → Prop} (hrun : ∀ lit, 37 ∉ lit → P lit)
    (hopen : ∀ lit, 37 ∉ lit → P (lit ++ [37]))
    (hdirective : ∀ lit c rest, 37 ∉ lit → P rest → P (lit ++ 37 :: c :: rest)) (s : Bytes) :
    P s := by
  induction hn : s.length using Nat.strong_induction_on generalizing s with
  | h n ih =>
    by_cases hs : 37 ∈ s
    · obtain ⟨lit, tail, rfl, hlit⟩ := List.eq_append_cons_of_mem hs
      cases tail with
      | nil => exact hopen lit hlit
      | cons c rest =>
        refine hdirective lit c rest hlit (ih _ ?_ rest rfl)
        rw [← hn, List.length_append, List.length_cons, List.length_cons]
        omega
    · exact hrun s hs

theorem takeWhile_run (hlit : 37 ∉ lit) (rest : Bytes) :
    (lit ++ rest).takeWhile (· ≠ 37) = lit ++ rest.takeWhile (· ≠ 37) :=
  List.takeWhile_append_of_pos fun _ hb => decide_eq_true fun hb37 => hlit (hb37 ▸ hb)

theorem dropWhile_run (hlit : 37 ∉ lit) (rest : Bytes) :
    (lit ++ rest).dropWhile (· ≠ 37) = rest.dropWhile (· ≠ 37) :=
  List.dropWhile_append_of_pos fun _ hb => decide_eq_true fun hb37 => hlit (hb37 ▸ hb)

/-- A run that is maximal is one literal, unless it is empty. -/
def literals (lit : Bytes) : List Token := if lit = [] then [] else [.literal lit]

theorem tokens_nil : tokens [] = [] := by rw [tokens]

theorem tokens_dangling : tokens [37] = [.dangling] := by rw [tokens, if_pos rfl]

theorem tokens_directive (c : UInt8) (rest : Bytes) :
    tokens (37 :: c :: rest) = .directive c :: tokens rest := by rw [tokens, if_pos rfl]

theorem tokens_literal {b : UInt8} (hb : b ≠ 37) (rest : Bytes) : tokens (b :: rest) =
    .literal (b :: rest.takeWhile (· ≠ 37)) :: tokens (rest.dropWhile (· ≠ 37)) := by
  cases rest with
  | nil => rw [tokens, if_neg hb]
  | cons c rest => rw [tokens, if_neg hb]

theorem tokens_append (hlit : 37 ∉ lit) (hrest : rest.takeWhile (· ≠ 37) = []) :
    tokens (lit ++ rest) = literals lit ++ tokens rest := by
  cases lit with
  | nil => rfl
  | cons b lit =>
    have hb : b ≠ 37 := fun hb => hlit (hb ▸ List.mem_cons_self)
    have hlit' : 37 ∉ lit := fun h => hlit (List.mem_cons_of_mem b h)
    have hdrop : rest.dropWhile (· ≠ 37) = rest := by
      have h := List.takeWhile_append_dropWhile (p := (· ≠ 37)) (l := rest)
      rwa [hrest, List.nil_append] at h
    rw [List.cons_append, tokens_literal hb, takeWhile_run hlit', dropWhile_run hlit', hrest,
      hdrop, List.append_nil]
    rfl

theorem tokens_run (hlit : 37 ∉ lit) : tokens lit = literals lit := by
  have h : tokens (lit ++ []) = literals lit ++ tokens [] := tokens_append hlit rfl
  rwa [List.append_nil, tokens_nil, List.append_nil] at h

theorem source_literals (lit : Bytes) : (literals lit).flatMap Token.source = lit := by
  rw [literals]
  split
  · next h => exact h.symm
  · simp [Token.source]

/-- Every character belongs to one token. -/
theorem tokens_source (s : Bytes) : (tokens s).flatMap Token.source = s := by
  induction s using shape_induction with
  | hrun lit hlit => rw [tokens_run hlit, source_literals]
  | hopen lit hlit =>
    rw [tokens_append hlit rfl, tokens_dangling, List.flatMap_append, source_literals]
    rfl
  | hdirective lit c rest hlit ih =>
    rw [tokens_append hlit rfl, tokens_directive, List.flatMap_append, source_literals,
      List.flatMap_cons, ih]
    rfl

/-! ### The loop -/

variable {m_pattern} {pre : Bytes} {fuel : Nat} {items : List FormatItem} {error : Bool}

theorem initLoop_done {i : Nat} (h : m_pattern.length ≤ i) (st : PARSE_STATUS) :
    initLoop m_pattern (fuel + 1) ⟨st, i, items, error⟩ = some ⟨st, i, items, error⟩ := by
  rw [initLoop]
  simp only [List.getElem?_eq_none h]

/-- One round takes a run and the `%` behind it, if there is one. -/
theorem initLoop_scan (hpattern : m_pattern = pre ++ (lit ++ rest)) (hlit : 37 ∉ lit)
    (hrest : rest.takeWhile (· ≠ 37) = []) (hne : lit ++ rest ≠ []) :
    initLoop m_pattern (fuel + 1) ⟨.SCAN_STATUS, pre.length, items, error⟩ =
      initLoop m_pattern fuel
        ⟨if rest = [] then .SCAN_STATUS else .CREATE_STATUS, (pre ++ lit).length + 1,
          items ++ [StringFormatItem lit], error⟩ := by
  have hdrop : m_pattern.drop pre.length = lit ++ rest := by rw [hpattern, List.drop_left]
  have hrun : (lit ++ rest).takeWhile (· ≠ 37) = lit := by
    rw [takeWhile_run hlit, hrest, List.append_nil]
  have hget : ∃ b, m_pattern[pre.length]? = some b := by
    rw [hpattern, List.getElem?_append_right (Nat.le_refl _), Nat.sub_self]
    obtain ⟨b, t, ht⟩ := List.exists_cons_of_ne_nil hne
    exact ⟨b, by rw [ht]; rfl⟩
  have hend : pre.length + lit.length < m_pattern.length ↔ rest ≠ [] := by
    rw [hpattern, List.length_append, List.length_append, ← List.length_pos_iff]
    omega
  obtain ⟨b, hb⟩ := hget
  rw [initLoop]
  simp only [hb, scan, hdrop, hrun, Nat.add_sub_cancel_left, List.take_left, List.length_append]
  by_cases hnil : rest = []
  · rw [if_neg (fun h => hend.mp h hnil), if_pos hnil]
  · rw [if_pos (hend.mpr hnil), if_neg hnil]

theorem initLoop_create (hpattern : m_pattern = pre ++ c :: rest) :
    initLoop m_pattern (fuel + 1) ⟨.CREATE_STATUS, pre.length, items, error⟩ =
      initLoop m_pattern fuel
        ⟨.SCAN_STATUS, (pre ++ [c]).length,
          items ++ [(find c).getD (StringFormatItem (chars "<error format>"))],
          error || (find c).isNone⟩ := by
  have hget : m_pattern[pre.length]? = some c := by
    rw [hpattern, List.getElem?_append_right (Nat.le_refl _), Nat.sub_self]
    rfl
  rw [initLoop, List.length_append, List.length_singleton]
  simp only [hget, create]
  cases find c with
  | none => simp
  | some item => simp

/-- The items that are not empty. -/
def kept (items : List FormatItem) : List FormatItem :=
  items.filter (· ≠ StringFormatItem [])

theorem kept_literal (items : List FormatItem) (lit : Bytes) :
    kept (items ++ [StringFormatItem lit]) = kept items ++ (literals lit).filterMap Token.item := by
  rw [kept, List.filter_append, literals]
  by_cases h : lit = []
  · simp [kept, h]
  · simp [kept, h, Token.item]

theorem kept_directive (items : List FormatItem) (c : UInt8) :
    kept (items ++ [(find c).getD (StringFormatItem (chars "<error format>"))]) =
      kept items ++ [Token.directive c].filterMap Token.item := by
  have hall : ∀ e ∈ format_item_map, e.2 ≠ StringFormatItem [] := by decide
  have hne : (find c).getD (StringFormatItem (chars "<error format>")) ≠ StringFormatItem [] := by
    rw [find]
    cases h : format_item_map.find? fun e => e.1.toNat.toUInt8 = c with
    | none => decide
    | some e => exact hall e (List.mem_of_find?_eq_some h)
  rw [kept, List.filter_append, List.filter_singleton, decide_eq_true hne]
  rfl

/-- The error that the code notices. -/
def noticed (t : Token) : Bool := t.item.isSome && t.wrong

theorem any_literals (lit : Bytes) : (literals lit).any noticed = false := by
  rw [literals]
  split
  · rfl
  · rfl

/-- A `%` at the very end leads to nothing: neither to an item nor to an error. -/
theorem initLoop_eq (rest : Bytes) : ∀ pre fuel items error, m_pattern = pre ++ rest →
    rest.length < fuel → ∃ s,
      initLoop m_pattern fuel ⟨.SCAN_STATUS, pre.length, items, error⟩ = some s ∧
      kept s.m_items = kept items ++ (tokens rest).filterMap Token.item ∧
      s.m_error = (error || (tokens rest).any noticed) := by
  induction rest using shape_induction with
  | hrun lit hlit =>
    intro pre fuel items error hpattern hfuel
    rw [tokens_run hlit, any_literals, Bool.or_false]
    by_cases hnil : lit = []
    · obtain ⟨fuel, rfl⟩ : ∃ f, fuel = f + 1 := ⟨fuel - 1, by omega⟩
      refine ⟨_, initLoop_done (by simp [hpattern, hnil]) _, ?_, rfl⟩
      rw [hnil]
      simp [literals]
    · have hpos := List.length_pos_iff.mpr hnil
      obtain ⟨fuel, rfl⟩ : ∃ f, fuel = f + 2 := ⟨fuel - 2, by omega⟩
      have hpattern' : m_pattern = pre ++ (lit ++ []) := by rw [hpattern, List.append_nil]
      rw [initLoop_scan hpattern' hlit rfl (by simpa using hnil),
        initLoop_done (by simp [hpattern])]
      exact ⟨_, rfl, kept_literal items lit, rfl⟩
  | hopen lit hlit =>
    intro pre fuel items error hpattern hfuel
    rw [List.length_append, List.length_singleton] at hfuel
    obtain ⟨fuel, rfl⟩ : ∃ f, fuel = f + 2 := ⟨fuel - 2, by omega⟩
    rw [initLoop_scan hpattern hlit rfl (by simp), initLoop_done (by simp +arith [hpattern]),
      tokens_append hlit rfl, tokens_dangling, List.filterMap_append, List.any_append,
      any_literals, Bool.false_or]
    refine ⟨_, rfl, (kept_literal items lit).trans ?_, (Bool.or_false error).symm⟩
    simp [Token.item]
  | hdirective lit c rest hlit ih =>
    intro pre fuel items error hpattern hfuel
    rw [List.length_append, List.length_cons, List.length_cons] at hfuel
    obtain ⟨fuel, rfl⟩ : ∃ f, fuel = f + 2 := ⟨fuel - 2, by omega⟩
    have hpos : (pre ++ lit).length + 1 = (pre ++ lit ++ [37]).length := by simp +arith
    have hpattern' : m_pattern = pre ++ lit ++ [37] ++ c :: rest := by simp [hpattern]
    obtain ⟨s, hs, hitems, herror⟩ := ih (pre ++ lit ++ [37] ++ [c]) fuel
      (items ++ [StringFormatItem lit] ++
        [(find c).getD (StringFormatItem (chars "<error format>"))])
      (error || (find c).isNone) (by simp [hpattern]) (by omega)
    refine ⟨s, ?_, ?_, ?_⟩
    · rw [initLoop_scan hpattern hlit rfl (by simp), if_neg (List.cons_ne_nil 37 _), hpos,
        initLoop_create hpattern', hs]
    · rw [hitems, kept_directive, kept_literal, tokens_append hlit rfl, tokens_directive,
        List.filterMap_append, ← List.singleton_append (l := tokens rest), List.filterMap_append]
      simp only [List.append_assoc]
    · rw [herror, tokens_append hlit rfl, tokens_directive, List.any_append, any_literals,
        List.any_cons, Bool.false_or, Bool.or_assoc]
      rfl

/-! ### The end of the pattern -/

/-- How many `%` a pattern ends with. -/
def percents (s : Bytes) : Nat := (s.reverse.takeWhile (· = 37)).length

theorem percents_run (hlit : 37 ∉ lit) : percents lit = 0 := by
  rw [percents]
  cases h : lit.reverse with
  | nil => rfl
  | cons b t =>
    have hb : b ∈ lit := List.mem_reverse.mp (h ▸ List.mem_cons_self)
    have hne : b ≠ 37 := fun hb37 => hlit (hb37 ▸ hb)
    rw [List.takeWhile_cons_of_neg (by simpa using hne), List.length_nil]

theorem takeWhile_reverse_eq (t : Bytes) :
    (t.reverse.takeWhile (· = 37)).length = t.reverse.length ↔ ∀ b ∈ t, b = 37 := by
  rw [(List.takeWhile_prefix _).sublist.length_eq, List.takeWhile_eq_self_iff]
  simp

theorem percents_append_of_all (s : Bytes) {t : Bytes} (h : ∀ b ∈ t, b = 37) :
    percents (s ++ t) = t.length + percents s := by
  rw [percents, List.reverse_append, List.takeWhile_append, if_pos ((takeWhile_reverse_eq t).mpr h),
    List.length_append, List.length_reverse]
  rfl

theorem percents_append_of_not (s : Bytes) {t : Bytes} (h : ¬∀ b ∈ t, b = 37) :
    percents (s ++ t) = percents t := by
  rw [percents, List.reverse_append, List.takeWhile_append,
    if_neg fun hlen => h ((takeWhile_reverse_eq t).mp hlen)]
  rfl

/-- A directive in front does not change whether the number is even. -/
theorem percents_directive (hlit : 37 ∉ lit) (c : UInt8) (rest : Bytes) :
    percents (lit ++ 37 :: c :: rest) % 2 = percents rest % 2 := by
  have hsplit : lit ++ 37 :: c :: rest = lit ++ [37, c] ++ rest := by simp
  rw [hsplit]
  by_cases hall : ∀ b ∈ rest, b = 37
  · have hrest := percents_append_of_all [] hall
    rw [List.nil_append] at hrest
    rw [percents_append_of_all _ hall, hrest]
    by_cases hc : c = 37
    · rw [percents_append_of_all lit (by simp [hc]), percents_run hlit]
      simp [percents]
    · rw [percents_append_of_not lit (by simp [hc])]
      simp [percents, hc]
  · rw [percents_append_of_not _ hall]

theorem dangling_mem_iff (s : Bytes) : Token.dangling ∈ tokens s ↔ percents s % 2 = 1 := by
  have hliterals : ∀ lit, Token.dangling ∉ literals lit := fun lit => by
    rw [literals]
    split <;> simp
  induction s using shape_induction with
  | hrun lit hlit =>
    rw [tokens_run hlit, percents_run hlit]
    exact iff_of_false (hliterals lit) (by decide)
  | hopen lit hlit =>
    rw [tokens_append hlit rfl, tokens_dangling, percents_append_of_all lit (by simp),
      percents_run hlit]
    simp
  | hdirective lit c rest hlit ih =>
    rw [tokens_append hlit rfl, tokens_directive, percents_directive hlit, List.mem_append,
      or_iff_right (hliterals lit), List.mem_cons, or_iff_right (by simp)]
    exact ih

/-- **The patterns that are read as they should be** end with an even number of `%`. -/
theorem right_iff (m_pattern : Bytes) : Right m_pattern ↔ percents m_pattern % 2 = 0 := by
  have heven : percents m_pattern % 2 = 0 ↔ Token.dangling ∉ tokens m_pattern := by
    rw [dangling_mem_iff]
    omega
  obtain ⟨s, hs, hitems, herror⟩ := initLoop_eq m_pattern [] (m_pattern.length + 1) [] false rfl
    (Nat.lt_succ_self _)
  rw [heven, Right]
  constructor
  · rintro ⟨s', hs', hsame, -⟩ hmem
    obtain rfl := Option.some.inj (hs.symm.trans hs')
    have hnone : none ∈ (tokens m_pattern).map Token.item := List.mem_map.mpr ⟨_, hmem, rfl⟩
    rw [← hsame] at hnone
    simp at hnone
  · intro hmem
    have hitem : ∀ t ∈ tokens m_pattern, t.item.isSome = true := by
      intro t ht
      cases t with
      | literal text => rfl
      | directive c => rfl
      | dangling => exact absurd ht hmem
    refine ⟨s, hs, ?_, ?_⟩
    · show (kept s.m_items).map some = _
      rw [hitems, show kept [] = [] from rfl, List.nil_append,
        List.map_filterMap_some_eq_filter_map_isSome, List.filter_eq_self]
      exact List.forall_mem_map.mpr hitem
    · rw [herror, Bool.false_or, Bool.eq_iff_iff, List.any_eq_true, List.any_eq_true]
      refine exists_congr fun t => and_congr_right fun ht => ?_
      rw [noticed, hitem t ht, Bool.true_and]

/-- A pattern that is a `%`: no error is set. -/
theorem right_percent : ¬∀ m_pattern : Bytes, Right m_pattern := by
  intro h
  obtain ⟨s, hs, -, herror⟩ := h [37]
  have hinit : init [37] = some ⟨.CREATE_STATUS, 1, [StringFormatItem []], false⟩ := by decide
  obtain rfl := Option.some.inj (hinit.symm.trans hs)
  rw [tokens_dangling] at herror
  cases herror

example : (init (chars "%x%%")).map Scanner.m_items =
    some [StringFormatItem [], StringFormatItem (chars "<error format>"), StringFormatItem [],
      PercentSignFormatItem] := by decide

end LimWebserver.LogFormatter

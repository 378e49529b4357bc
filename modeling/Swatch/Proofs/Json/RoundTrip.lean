-- SUMMARY: A JSON value that is written over several lines is read again.
import Swatch.Json.Printer
import Swatch.Json.Reader
import Swatch.Proofs.Text.Number

/-!
# Reading what was written

The reader takes back what the printer writes: whole numbers, strings of any characters,
and lists and objects of them. What follows a value decides nothing but where a number
ends; in what the printer writes, a comma or a line break follows.
-/

namespace Swatch.Json

open Text (isDigit_of_mem_ofNat ofNat_ne_nil exists_cons_ofNat head?_ofNat decimalBelow?_ofNat)

/-! ## White space -/

theorem skip_of_head {c : Char} {t : Text} (h : isSpace c = false) : skip (c :: t) = c :: t :=
  List.dropWhile_cons_of_neg (by simp [h])

theorem skip_newline (level : Nat) (t : Text) : skip (Value.newline level ++ t) = skip t := by
  have hspaces (n : Nat) : skip (List.replicate n ' ' ++ t) = skip t := by
    induction n with
    | zero => rfl
    | succ n ih => exact ih
  exact hspaces (2 * level)

theorem isSpace_of_isDigit {c : Char} (h : c.isDigit) : isSpace c = false := by
  refine Bool.eq_false_iff.2 fun hspace => ?_
  simp only [isSpace, Bool.or_eq_true, beq_iff_eq] at hspace
  obtain ((rfl | rfl) | rfl) | rfl := hspace <;> cases h

/-! ## Numbers -/

theorem word?_ofNat {n : Nat} (hn : n < UInt64.size) : (Value.ofNat n).word? = some n := by
  simp [Value.ofNat, Value.word?, decimalBelow?_ofNat hn]

/-- A comma or a line break ends what comes before it, and so does the end of a text. -/
def EndsValue (rest : Text) : Prop :=
  ∀ c ∈ rest.head?, c = ',' ∨ c = '\n'

theorem EndsValue.newline (level : Nat) (t : Text) : EndsValue (Value.newline level ++ t) := by
  rintro c hc
  exact .inr (Option.mem_some_iff.1 hc).symm

theorem EndsValue.comma (t : Text) : EndsValue (',' :: t) := by
  rintro c hc
  exact .inl (Option.mem_some_iff.1 hc).symm

theorem digits?_append {digits rest : Text} (hne : digits ≠ []) (hdigits : ∀ c ∈ digits, c.isDigit)
    (hrest : EndsValue rest) : digits? (digits ++ rest) = some (digits, rest) := by
  have hstop : rest.takeWhile Char.isDigit = [] := by
    cases rest with
    | nil => rfl
    | cons c rest => rcases hrest c rfl with rfl | rfl <;> rfl
  have htake : (digits ++ rest).takeWhile Char.isDigit = digits := by
    rw [List.takeWhile_append_of_pos hdigits, hstop, List.append_nil]
  rw [digits?, htake, List.drop_left, if_neg (by simpa using hne)]

theorem EndsValue.fraction? {rest : Text} (h : EndsValue rest) :
    fraction? rest = some ([], rest) := by
  cases rest with
  | nil => rfl
  | cons c rest => rcases h c rfl with rfl | rfl <;> rfl

theorem EndsValue.exponent? {rest : Text} (h : EndsValue rest) :
    exponent? rest = some ([], rest) := by
  cases rest with
  | nil => rfl
  | cons c rest => rcases h c rfl with rfl | rfl <;> rfl

theorem whole?_ofNat (n : Nat) {rest : Text} (hrest : EndsValue rest) :
    whole? (Text.ofNat n ++ rest) = some (Text.ofNat n, rest) := by
  rcases Nat.eq_zero_or_pos n with rfl | hn
  · cases rest with
    | nil => rfl
    | cons c rest => rcases hrest c rfl with rfl | rfl <;> rfl
  · have hzero (t : Text) : Text.ofNat n ++ rest ≠ '0' :: t := by
      intro h
      obtain ⟨c, digits, hdigits⟩ := List.exists_cons_of_ne_nil (ofNat_ne_nil n)
      have hhead := head?_ofNat hn
      rw [hdigits] at h hhead
      exact hhead (congrArg some (List.cons.inj h).1)
    rw [whole?.eq_2 _ hzero]
    exact digits?_append (ofNat_ne_nil n) (fun _ => isDigit_of_mem_ofNat) hrest

theorem number?_ofNat (n : Nat) {rest : Text} (hrest : EndsValue rest) :
    number? (Text.ofNat n ++ rest) = some (Text.ofNat n, rest) := by
  obtain ⟨c, digits, hdigits, hdigit⟩ := exists_cons_ofNat n
  have hsign : c ≠ '-' := by
    rintro rfl
    cases hdigit
  have hwhole := whole?_ofNat n hrest
  rw [hdigits, List.cons_append] at hwhole ⊢
  simp [number?, hsign, hwhole, hrest.fraction?, hrest.exponent?]

/-! ## Strings -/

theorem scalar?_toNat (c : Char) : scalar? c.toNat = some c := by
  have hvalid := c.valid
  have hscalar : ¬(0xD800 ≤ c.toNat ∧ c.toNat ≤ 0xDFFF) := by
    simp only [UInt32.isValidChar, Nat.isValidChar] at hvalid
    have : c.toNat = c.val.toNat := rfl
    omega
  rw [scalar?, if_neg hscalar, Char.ofNat_toNat]

/-- An escape with a number below the surrogates is a character by itself, whatever follows. -/
theorem stringBody?_unit {a b c d : Char} {unit : Nat} (hunit : hexUnit? a b c d = some unit)
    (hsmall : unit < 0xD800) (rest : Text) :
    stringBody? ('\\' :: 'u' :: a :: b :: c :: d :: rest)
      = consChar (scalar? unit) (stringBody? rest) := by
  have hnone (low : Option Nat) : low.bind (pair? unit) = none := by
    cases low with
    | none => rfl
    | some low => exact if_neg fun h => absurd h.1 (by omega)
  rw [stringBody?, hunit]
  dsimp only
  split
  · rw [hnone]
  · rfl

theorem stringBody?_letter {e c : Char} (he : e ≠ 'u') (hc : unescape? e = some c) (rest : Text) :
    stringBody? ('\\' :: e :: rest) = consChar (some c) (stringBody? rest) := by
  rw [stringBody?, hc]
  exact fun _ _ _ _ _ h _ => he h

theorem stringBody?_plain {c : Char} (hquote : c ≠ '"') (hescape : c ≠ '\\')
    (hcontrol : ¬ c.toNat < 0x20) (rest : Text) :
    stringBody? (c :: rest) = consChar (some c) (stringBody? rest) := by
  rw [stringBody?, if_neg (not_or.2 ⟨hcontrol, hescape⟩)]
  · exact hquote
  · exact fun _ _ _ _ _ h _ => hescape h
  · exact fun _ _ h _ => hescape h

theorem hexUnit?_control : ∀ n < 0x20,
    hexUnit? '0' '0' (lowerHexDigit (n / 16)) (lowerHexDigit (n % 16)) = some n := by
  decide

/-- An escape is read as the character that it stands for. -/
theorem stringBody?_escape (c : Char) (rest : Text) :
    stringBody? (escape c ++ rest) = consChar (some c) (stringBody? rest) := by
  unfold escape
  -- Seven characters have a letter of their own.
  iterate 7
    split
    · next h =>
      subst h
      exact stringBody?_letter (by decide) rfl rest
  split
  · next hcontrol =>
    have hunit := stringBody?_unit (hexUnit?_control c.toNat hcontrol) (by omega) rest
    rwa [scalar?_toNat] at hunit
  · next hquote hescape _ _ _ _ _ hcontrol => exact stringBody?_plain hquote hescape hcontrol rest

theorem stringBody?_quoted (t rest : Text) :
    stringBody? (t.flatMap escape ++ '"' :: rest) = some (some t, rest) := by
  induction t with
  | nil => rw [List.flatMap_nil, List.nil_append, stringBody?]
  | cons c t ih =>
    rw [List.flatMap_cons, List.append_assoc, stringBody?_escape, ih]
    rfl

/-! ## Values -/

/-- A value whose numbers are whole and whose strings are texts. -/
inductive Value.Plain : Value → Prop where
  | null : Plain .null
  | bool (b : Bool) : Plain (.bool b)
  | ofNat (n : Nat) : Plain (.ofNat n)
  | text (t : Text) : Plain (.text t)
  | list {values : List Value} (h : ∀ v ∈ values, Plain v) : Plain (.list values)
  | object {fields : List (Text × Value)} (h : ∀ f ∈ fields, Plain f.2) : Plain (.object fields)

/-- A value is read from what the printer writes, whatever follows. -/
def Value.Reads (v : Value) : Prop :=
  ∀ level fuel rest, 2 * (v.indent level).length ≤ fuel + 1 → EndsValue rest →
    value? fuel (v.indent level ++ rest) = some (v, rest)

/-- What the printer writes starts with neither white space nor a closing bracket. -/
theorem Value.Plain.exists_cons {v : Value} (h : v.Plain) (level : Nat) :
    ∃ c t, v.indent level = c :: t ∧ isSpace c = false ∧ c ≠ ']' := by
  cases h with
  | null => exact ⟨_, _, rfl, by decide, by decide⟩
  | bool b => cases b <;> exact ⟨_, _, rfl, by decide, by decide⟩
  | ofNat n =>
    obtain ⟨c, digits, hdigits, hdigit⟩ := exists_cons_ofNat n
    refine ⟨c, digits, hdigits, isSpace_of_isDigit hdigit, ?_⟩
    rintro rfl
    cases hdigit
  | text t => exact ⟨_, _, rfl, by decide, by decide⟩
  | list h =>
    rename_i values
    cases values <;> exact ⟨_, _, rfl, by decide, by decide⟩
  | object h =>
    rename_i fields
    cases fields <;> exact ⟨_, _, rfl, by decide, by decide⟩

theorem Value.Plain.length_pos {v : Value} (h : v.Plain) (level : Nat) :
    0 < (v.indent level).length := by
  obtain ⟨c, t, hc, -⟩ := h.exists_cons level
  simp [hc]

theorem exists_joinWith_cons (separator t : Text) (ts : List Text) :
    ∃ u, joinWith separator (t :: ts) = t ++ u := by
  cases ts with
  | nil => exact ⟨[], (List.append_nil t).symm⟩
  | cons t' ts => exact ⟨separator ++ joinWith separator (t' :: ts), List.append_assoc ..⟩

/-! ### Lists -/

theorem elements?_last {fuel : Nat} {t after rest : Text} {v : Value}
    (hv : value? fuel t = some (v, after)) (hafter : skip after = ']' :: rest) :
    elements? (fuel + 1) t = some ([v], rest) := by
  simp only [elements?, hv, Option.bind_eq_bind, Option.bind_some, hafter]

theorem elements?_more {fuel : Nat} {t after more rest : Text} {v : Value} {values : List Value}
    (hv : value? fuel t = some (v, after)) (hafter : skip after = ',' :: more)
    (hmore : elements? fuel (skip more) = some (values, rest)) :
    elements? (fuel + 1) t = some (v :: values, rest) := by
  simp only [elements?, hv, Option.bind_eq_bind, Option.bind_some, hafter, hmore, Option.pure_def]

def elementLines (level : Nat) (values : List Value) : Text :=
  joinWith (',' :: Value.newline level) (Value.indentAll level values)

theorem exists_cons_elementLines {v : Value} (h : v.Plain) (values : List Value) (level : Nat) :
    ∃ c t, elementLines level (v :: values) = c :: t ∧ isSpace c = false ∧ c ≠ ']' := by
  obtain ⟨u, hu⟩ := exists_joinWith_cons (',' :: Value.newline level) (v.indent level)
    (Value.indentAll level values)
  obtain ⟨c, t, hc, hends⟩ := h.exists_cons level
  rw [elementLines, Value.indentAll, hu, hc]
  exact ⟨c, t ++ u, rfl, hends⟩

theorem skip_elementLines {v : Value} (h : v.Plain) (values : List Value) (level : Nat) (t : Text) :
    skip (elementLines level (v :: values) ++ t) = elementLines level (v :: values) ++ t := by
  obtain ⟨c, w, hc, hspace, -⟩ := exists_cons_elementLines h values level
  rw [hc]
  exact skip_of_head hspace

theorem elementLines_cons (level : Nat) (v v' : Value) (values : List Value) :
    elementLines level (v :: v' :: values)
      = v.indent level ++ ',' :: (Value.newline level ++ elementLines level (v' :: values)) := by
  simp [elementLines, Value.indentAll, joinWith]

theorem elements?_elementLines {values : List Value} (hne : values ≠ [])
    (hplain : ∀ v ∈ values, v.Plain) (hreads : ∀ v ∈ values, v.Reads) {level fuel : Nat}
    (hfuel : 2 * (elementLines level values).length ≤ fuel) (outer : Nat) (rest : Text) :
    elements? fuel (elementLines level values ++ (Value.newline outer ++ ']' :: rest))
      = some (values, rest) := by
  induction values generalizing fuel with
  | nil => exact absurd rfl hne
  | cons v values ih =>
    obtain ⟨hv, hplain⟩ := List.forall_mem_cons.1 hplain
    obtain ⟨hread, hreads⟩ := List.forall_mem_cons.1 hreads
    have hlength := hv.length_pos level
    cases values with
    | nil =>
      have hlines : elementLines level [v] = v.indent level := rfl
      rw [hlines] at hfuel ⊢
      obtain ⟨fuel, rfl⟩ : ∃ k, fuel = k + 1 := ⟨fuel - 1, by omega⟩
      refine elements?_last (hread level fuel _ (by omega) (EndsValue.newline _ _)) ?_
      rw [skip_newline]
      rfl
    | cons v' values =>
      rw [elementLines_cons] at hfuel ⊢
      simp only [List.length_append, List.length_cons] at hfuel
      obtain ⟨fuel, rfl⟩ : ∃ k, fuel = k + 1 := ⟨fuel - 1, by omega⟩
      rw [List.append_assoc, List.cons_append]
      refine elements?_more (hread level fuel _ (by omega) (EndsValue.comma _)) rfl ?_
      rw [List.append_assoc, skip_newline, skip_elementLines (hplain v' List.mem_cons_self)]
      exact ih (List.cons_ne_nil _ _) hplain hreads (by omega)

/-! ### Objects -/

theorem fields?_last {fuel : Nat} {t behind after rest : Text} {name : Text} {v : Value}
    (hname : stringBody? t = some (some name, ':' :: behind))
    (hv : value? fuel (skip behind) = some (v, after)) (hafter : skip after = '}' :: rest) :
    fields? (fuel + 1) ('"' :: t) = some (some [(name, v)], rest) := by
  have hcolon : after? [':'] (skip (':' :: behind)) = some behind := rfl
  simp only [fields?, hname, hcolon, hv, Option.bind_eq_bind, Option.bind_some, hafter,
    Option.map_some]

theorem fields?_more {fuel : Nat} {t behind after more rest : Text} {name : Text} {v : Value}
    {fields : List (Text × Value)} (hname : stringBody? t = some (some name, ':' :: behind))
    (hv : value? fuel (skip behind) = some (v, after)) (hafter : skip after = ',' :: more)
    (hmore : fields? fuel (skip more) = some (some fields, rest)) :
    fields? (fuel + 1) ('"' :: t) = some (some ((name, v) :: fields), rest) := by
  have hcolon : after? [':'] (skip (':' :: behind)) = some behind := rfl
  simp only [fields?, hname, hcolon, hv, Option.bind_eq_bind, Option.bind_some, hafter, hmore,
    Option.map_some, Option.pure_def]

def fieldLines (level : Nat) (fields : List (Text × Value)) : Text :=
  joinWith (',' :: Value.newline level) (Value.indentFields level fields)

theorem fieldLines_cons (level : Nat) (name : Text) (v : Value) (f : Text × Value)
    (fields : List (Text × Value)) :
    fieldLines level ((name, v) :: f :: fields)
      = '"' :: (name.flatMap escape ++ '"' :: ':' :: ' ' :: (v.indent level
        ++ ',' :: (Value.newline level ++ fieldLines level (f :: fields)))) := by
  simp [fieldLines, Value.indentFields, joinWith, quote]

theorem fieldLines_singleton (level : Nat) (name : Text) (v : Value) :
    fieldLines level [(name, v)]
      = '"' :: (name.flatMap escape ++ '"' :: ':' :: ' ' :: v.indent level) := by
  simp [fieldLines, Value.indentFields, joinWith, quote]

theorem exists_cons_fieldLines (f : Text × Value) (fields : List (Text × Value)) (level : Nat) :
    ∃ t, fieldLines level (f :: fields) = '"' :: t := by
  cases fields with
  | nil => exact ⟨_, fieldLines_singleton level f.1 f.2⟩
  | cons f' fields => exact ⟨_, fieldLines_cons level f.1 f.2 f' fields⟩

theorem skip_fieldLines (f : Text × Value) (fields : List (Text × Value)) (level : Nat) (t : Text) :
    skip (fieldLines level (f :: fields) ++ t) = fieldLines level (f :: fields) ++ t := by
  obtain ⟨w, hw⟩ := exists_cons_fieldLines f fields level
  rw [hw]
  rfl

theorem fields?_fieldLines {fields : List (Text × Value)} (hne : fields ≠ [])
    (hplain : ∀ f ∈ fields, f.2.Plain) (hreads : ∀ f ∈ fields, f.2.Reads) {level fuel : Nat}
    (hfuel : 2 * (fieldLines level fields).length ≤ fuel) (outer : Nat) (rest : Text) :
    fields? fuel (fieldLines level fields ++ (Value.newline outer ++ '}' :: rest))
      = some (some fields, rest) := by
  induction fields generalizing fuel with
  | nil => exact absurd rfl hne
  | cons f fields ih =>
    obtain ⟨name, v⟩ := f
    obtain ⟨hv, hplain⟩ := List.forall_mem_cons.1 hplain
    obtain ⟨hread, hreads⟩ := List.forall_mem_cons.1 hreads
    replace hread : v.Reads := hread
    have hskip (t : Text) : skip (' ' :: (v.indent level ++ t)) = v.indent level ++ t := by
      obtain ⟨c, w, hc, hspace, -⟩ := hv.exists_cons level
      rw [hc]
      exact skip_of_head hspace
    cases fields with
    | nil =>
      rw [fieldLines_singleton] at hfuel ⊢
      simp only [List.length_append, List.length_cons] at hfuel
      obtain ⟨fuel, rfl⟩ : ∃ k, fuel = k + 1 := ⟨fuel - 1, by omega⟩
      simp only [List.cons_append, List.append_assoc]
      refine fields?_last (stringBody?_quoted name _) ?_ (skip_newline outer ('}' :: rest))
      rw [hskip]
      exact hread level fuel _ (by omega) (EndsValue.newline _ _)
    | cons f fields =>
      rw [fieldLines_cons] at hfuel ⊢
      simp only [List.length_append, List.length_cons] at hfuel
      obtain ⟨fuel, rfl⟩ : ∃ k, fuel = k + 1 := ⟨fuel - 1, by omega⟩
      simp only [List.cons_append, List.append_assoc]
      have hvalue := hread level fuel _ (by omega) (EndsValue.comma (Value.newline level
        ++ (fieldLines level (f :: fields) ++ (Value.newline outer ++ '}' :: rest))))
      rw [← hskip] at hvalue
      refine fields?_more (stringBody?_quoted name _) hvalue rfl ?_
      rw [skip_newline, skip_fieldLines]
      exact ih (List.cons_ne_nil _ _) hplain hreads (by omega)

/-! ### All values -/

theorem value?_number {fuel : Nat} {t written rest : Text} (hdigit : t.head?.any Char.isDigit)
    (h : number? t = some (written, rest)) :
    value? (fuel + 1) t = some (.number written, rest) := by
  cases t with
  | nil => cases hdigit
  | cons c t =>
    replace hdigit : c.isDigit := hdigit
    rw [value?, h]
    · rfl
    all_goals
      rintro rfl
      cases hdigit

theorem value?_list {fuel : Nat} {t rest : Text} {values : List Value}
    (hhead : ∀ u, skip t ≠ ']' :: u) (h : elements? fuel (skip t) = some (values, rest)) :
    value? (fuel + 1) ('[' :: t) = some (.list values, rest) := by
  rw [value?]
  split
  · next heq => exact absurd heq (hhead _)
  · rw [h]
    rfl

theorem value?_object {fuel : Nat} {t rest : Text} {fields : List (Text × Value)}
    (hhead : ∀ u, skip t ≠ '}' :: u) (h : fields? fuel (skip t) = some (some fields, rest)) :
    value? (fuel + 1) ('{' :: t) = some (.object fields, rest) := by
  rw [value?]
  split
  · next heq => exact absurd heq (hhead _)
  · rw [h]
    rfl

theorem indent_list (level : Nat) {values : List Value} (hne : values ≠ []) :
    Value.indent level (.list values) = '[' :: (Value.newline (level + 1)
      ++ (elementLines (level + 1) values ++ (Value.newline level ++ [']']))) := by
  obtain ⟨v, values, rfl⟩ := List.exists_cons_of_ne_nil hne
  simp [Value.indent, Value.block, Value.indentAll, elementLines]

theorem indent_object (level : Nat) {fields : List (Text × Value)} (hne : fields ≠ []) :
    Value.indent level (.object fields) = '{' :: (Value.newline (level + 1)
      ++ (fieldLines (level + 1) fields ++ (Value.newline level ++ ['}']))) := by
  obtain ⟨⟨name, v⟩, fields, rfl⟩ := List.exists_cons_of_ne_nil hne
  simp [Value.indent, Value.block, Value.indentFields, fieldLines]

/-- To read a value takes at least one step. -/
theorem Value.Plain.reads_of_succ {v : Value} (h : v.Plain)
    (hsucc : ∀ level fuel rest, 2 * (v.indent level).length ≤ fuel + 2 → EndsValue rest →
      value? (fuel + 1) (v.indent level ++ rest) = some (v, rest)) : v.Reads := by
  intro level fuel rest hfuel hrest
  have hlength := h.length_pos level
  obtain ⟨fuel, rfl⟩ : ∃ k, fuel = k + 1 := ⟨fuel - 1, by omega⟩
  exact hsucc level fuel rest hfuel hrest

/-- A plain value is read from what the printer writes. -/
theorem Value.Plain.reads {v : Value} (h : v.Plain) : v.Reads := by
  induction h with
  | null => exact Plain.null.reads_of_succ fun _ _ _ _ _ => rfl
  | bool b => exact (Plain.bool b).reads_of_succ fun _ _ _ _ _ => by cases b <;> rfl
  | ofNat n =>
    refine (Plain.ofNat n).reads_of_succ fun level fuel rest _ hrest => ?_
    refine value?_number ?_ (number?_ofNat n hrest)
    obtain ⟨c, digits, hdigits, hdigit⟩ := exists_cons_ofNat n
    change ((Text.ofNat n ++ rest).head?.any Char.isDigit) = true
    rwa [hdigits]
  | text t =>
    refine (Plain.text t).reads_of_succ fun level fuel rest _ _ => ?_
    simp only [Value.indent, Value.leafText, quote, List.cons_append, List.append_assoc,
      List.nil_append, value?, stringBody?_quoted]
    rfl
  | @list values h ih =>
    refine (Plain.list h).reads_of_succ fun level fuel rest hfuel _ => ?_
    cases values with
    | nil => rfl
    | cons v values =>
      rw [indent_list _ (List.cons_ne_nil v values)] at hfuel ⊢
      simp only [List.length_append, List.length_cons] at hfuel
      simp only [List.cons_append, List.append_assoc]
      have hskip := skip_elementLines (h v List.mem_cons_self) values (level + 1)
      refine value?_list (fun u => ?_) ?_
      · obtain ⟨c, w, hc, -, hbracket⟩ :=
          exists_cons_elementLines (h v List.mem_cons_self) values (level + 1)
        rw [skip_newline, hskip, hc]
        exact fun heq => hbracket (List.cons.inj heq).1
      · rw [skip_newline, hskip]
        exact elements?_elementLines (List.cons_ne_nil v values) h ih (by omega) level rest
  | @object fields h ih =>
    refine (Plain.object h).reads_of_succ fun level fuel rest hfuel _ => ?_
    cases fields with
    | nil => rfl
    | cons f fields =>
      rw [indent_object _ (List.cons_ne_nil f fields)] at hfuel ⊢
      simp only [List.length_append, List.length_cons] at hfuel
      simp only [List.cons_append, List.append_assoc]
      have hskip := skip_fieldLines f fields (level + 1)
      refine value?_object (fun u => ?_) ?_
      · obtain ⟨w, hw⟩ := exists_cons_fieldLines f fields (level + 1)
        rw [skip_newline, hskip, hw]
        exact fun heq => absurd (List.cons.inj heq).1 (by decide)
      · rw [skip_newline, hskip]
        exact fields?_fieldLines (List.cons_ne_nil f fields) h ih (by omega) level rest

/-- A plain value that was written is read again. -/
theorem Value.Plain.read?_indent {v : Value} (h : v.Plain) : Value.read? (v.indent 0) = some v := by
  obtain ⟨c, t, hc, hspace, -⟩ := h.exists_cons 0
  have hskip : skip (v.indent 0) = v.indent 0 := by
    rw [hc]
    exact skip_of_head hspace
  have hread := h.reads 0 (2 * (v.indent 0).length + 2) [] (by omega) (fun c hc => by cases hc)
  rw [List.append_nil] at hread
  rw [Value.read?, hskip, hread]
  rfl

end Swatch.Json

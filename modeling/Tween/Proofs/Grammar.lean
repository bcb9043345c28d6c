import Tween.Proofs.Scanning

namespace Tween

open Text

namespace Text

theorem trim_append {pre a post : List Char} (hpre : Blanks pre) (hne : a ≠ [])
    (ha : ∀ c ∈ a, isBlank c = false) (hpost : Blanks post) : trim (pre ++ (a ++ post)) = a := by
  have hstart : Stops isBlank (a ++ post) := (stops_of_forall ha).append hne post
  have hback : Stops isBlank a.reverse :=
    stops_of_forall fun c hc => ha c (List.mem_reverse.mp hc)
  have hend : Blanks post.reverse := fun c hc => hpost c (List.mem_reverse.mp hc)
  rw [trim, dropBlanks, dropBlanks, dropWhile_append hpre hstart, List.reverse_append,
    dropWhile_append hend hback, List.reverse_reverse]

namespace Whole

theorem matches_unsignedPattern {text : List Char} (h : unsignedPattern.Matches text) :
    ∃ pre digits post, text = pre ++ (digits ++ post) ∧ Blanks pre ∧ digits ≠ [] ∧
      (∀ c ∈ digits, c.isDigit = true) ∧ Blanks post := by
  cases h with
  | seq hpre h =>
    cases h with
    | seq hdigits hpost =>
      cases hpre with
      | many hpre =>
        cases hpost with
        | many hpost =>
          obtain ⟨hne, hall⟩ := Pattern.matches_many1_iff.mp hdigits
          exact ⟨_, _, _, rfl, hpre, hne, hall, hpost⟩

theorem unsignedPattern_matches {pre digits post : List Char} (hpre : Blanks pre)
    (hne : digits ≠ []) (hdigits : ∀ c ∈ digits, c.isDigit = true) (hpost : Blanks post) :
    unsignedPattern.Matches (pre ++ (digits ++ post)) :=
  .seq (.many hpre) (.seq (Pattern.matches_many1_iff.mpr ⟨hne, hdigits⟩) (.many hpost))

/-- An unsigned whole number is the value of its digits, if these are not too many. -/
theorem value_eq_of_ok {pre digits post : List Char} (hpre : Blanks pre) (hne : digits ≠ [])
    (hdigits : ∀ c ∈ digits, c.isDigit = true) (hpost : Blanks post) {n : Int}
    (h : value (pre ++ (digits ++ post)) = .ok n) :
    n = digitsValue digits ∧ digits.length ≤ Number.digitLimit := by
  have hblank : ∀ c ∈ digits, isBlank c = false := fun c hc =>
    Numeral.not_blank_of_isNumeric (by simp [Numeral.isNumeric, hdigits c hc])
  have hsign : splitSign digits = (false, digits) := by
    obtain ⟨c, rest, rfl⟩ := List.exists_cons_of_ne_nil hne
    rw [splitSign, if_neg]
    rw [Numeral.not_sign_of_isDigit (hdigits c List.mem_cons_self)]
    exact Bool.false_ne_true
  rw [value, trim_append hpre hne hblank hpost, hsign] at h
  split at h
  · cases h
  · dsimp only at h
    split at h
    next hlength =>
      rw [if_neg Bool.false_ne_true] at h
      exact ⟨(Except.ok.inj h).symm, hlength⟩
    next => cases h

end Whole

end Text

namespace Number

theorem exists_truncate {x : Float} (h : x.isFinite = true) : ∃ n, truncate x = .ok n := by
  change (parts x).isFinite = true at h
  unfold truncate
  cases hx : parts x with
  | notANumber | infinity =>
    rw [hx] at h
    cases h
  | zero => exact ⟨_, rfl⟩
  | finite => exact ⟨_, rfl⟩

end Number

namespace Curve

theorem ofName?_eq_some_iff {name : String} {curve : Curve} :
    ofName? name = some curve ↔ name = curve.name := by
  constructor
  · intro h
    have hname := List.find?_some h
    exact (of_decide_eq_true hname).symm
  · rintro rfl
    cases curve <;> decide

theorem ofName?_keyword : ofName? Bezier.keyword = none := by
  decide

end Curve

namespace Description

/-- The length of a numeral with a unit, before the fraction is cut off. -/
def measure (numeral : List Char) : TimeUnit → Float
  | .milliseconds => Numeral.value numeral
  | .seconds => Numeral.value numeral * 1000.0

/-- The easing that the words after a unit name: the circle if there are none, a curve by its name,
or a Bézier curve by four coordinates at most, under the name it is always written by. -/
inductive NamesEasing : List (List Char) → String → Easing → Prop
  | none : NamesEasing [] "circle" (.named .circle)
  | curve (c : Curve) : NamesEasing [c.name.toList] c.name (.named c)
  | bezier {numerals} (hnumerals : ∀ n ∈ numerals, Numeral.pattern.Matches n)
      (hlength : numerals.length ≤ 4) :
      NamesEasing ("cubic-bezier".toList :: numerals)
        (Bezier.complete (numerals.map Numeral.value)).name
        (.bezier (.complete (numerals.map Numeral.value)))

inductive Spells : List Char → Description → Prop
  /-- A whole number of milliseconds. -/
  | whole {pre digits post} (hpre : Blanks pre) (hne : digits ≠ [])
      (hdigits : ∀ c ∈ digits, c.isDigit = true) (hpost : Blanks post) :
      Spells (pre ++ (digits ++ post)) ⟨digitsValue digits, "circle", .named .circle⟩
  /-- A numeral, a unit that ends at a blank or with the text, and an easing. The length is the
  whole part of a finite number that is not negative. -/
  | form {pre numeral mid rest} {unit : TimeUnit} {length name easing} (hpre : Blanks pre)
      (hnumeral : Numeral.pattern.Matches numeral) (hmid : Blanks mid)
      (hrest : Stops (!isBlank ·) rest) (heasing : NamesEasing (words rest) name easing)
      (hfinite : (measure numeral unit).isFinite = true) (hnonneg : ¬measure numeral unit < 0.0)
      (hlength : Number.truncate (measure numeral unit) = .ok length) :
      Spells (pre ++ (numeral ++ (mid ++ (unit.text ++ rest)))) ⟨length, name, easing⟩

theorem readNumbers_eq_nil_iff {most : Nat} {ws : List (List Char)} :
    (readNumbers most ws).2 = [] ↔
      (∀ n ∈ ws, Numeral.pattern.Matches n) ∧ ws.length ≤ most := by
  induction ws generalizing most with
  | nil => cases most <;> simp [readNumbers]
  | cons word rest ih =>
    cases most with
    | zero => simp [readNumbers]
    | succ most =>
      rw [readNumbers, List.forall_mem_cons, List.length_cons, Nat.add_le_add_iff_right,
        ← Pattern.fits_iff]
      split
      next hfits => simp [hfits, ih]
      next hfits => simp [hfits]

theorem readNumbers_of_eq_nil {most : Nat} {ws : List (List Char)}
    (h : (readNumbers most ws).2 = []) : (readNumbers most ws).1 = ws.map Numeral.value := by
  induction ws generalizing most with
  | nil => cases most <;> simp [readNumbers]
  | cons word rest ih =>
    cases most with
    | zero => simp [readNumbers] at h
    | succ most =>
      rw [readNumbers] at h ⊢
      split at h
      next hfits =>
        rw [if_pos hfits]
        simpa using ih h
      next => simp at h

theorem ofList_eq_iff {word : List Char} {name : String} :
    String.ofList word = name ↔ word = name.toList := by
  constructor
  · rintro rfl
    simp
  · rintro rfl
    simp

theorem readEasing?_eq_some_iff {ws : List (List Char)} {name : String} {easing : Easing} :
    readEasing? ws = some (name, easing) ↔ NamesEasing ws name easing := by
  constructor
  · intro h
    cases ws with
    | nil =>
      obtain ⟨rfl, rfl⟩ := Prod.mk.inj (Option.some.inj h)
      exact .none
    | cons word rest =>
      -- The first word decides: a curve by its name, the keyword, or neither.
      rw [readEasing?] at h
      split at h
      next curve hcurve =>
        split at h
        next hrest =>
          obtain ⟨rfl, rfl⟩ := Prod.mk.inj (Option.some.inj h)
          rw [ofList_eq_iff.mp (Curve.ofName?_eq_some_iff.mp hcurve), hrest]
          exact .curve curve
        next => cases h
      next =>
        split at h
        next hword =>
          dsimp only at h
          split at h
          next hleft =>
            obtain ⟨rfl, rfl⟩ := Prod.mk.inj (Option.some.inj h)
            obtain ⟨hnumerals, hlength⟩ := readNumbers_eq_nil_iff.mp hleft
            rw [hword, readNumbers_of_eq_nil hleft]
            exact .bezier hnumerals hlength
          next => cases h
        next => cases h
  · intro h
    cases h with
    | none => rfl
    | curve c =>
      rw [readEasing?, Curve.ofName?_eq_some_iff.mpr (ofList_eq_iff.mpr rfl)]
      simp
    | bezier hnumerals hlength =>
      have hleft := readNumbers_eq_nil_iff.mpr ⟨hnumerals, hlength⟩
      have hkeyword : Curve.ofName? (String.ofList "cubic-bezier".toList) = none := by
        rw [String.ofList_toList]
        exact Curve.ofName?_keyword
      have hword : "cubic-bezier".toList = Bezier.keyword.toList := rfl
      rw [readEasing?, hkeyword]
      dsimp only
      rw [if_pos hword, if_pos hleft, readNumbers_of_eq_nil hleft]

theorem readLength?_eq_some_iff {numeral : List Char} {unit : TimeUnit} {length : Int} :
    readLength? numeral unit = some length ↔
      (measure numeral unit).isFinite = true ∧ ¬measure numeral unit < 0.0 ∧
        Number.truncate (measure numeral unit) = .ok length := by
  have hread : readLength? numeral unit =
      if (measure numeral unit).isFinite && !decide (measure numeral unit < 0.0) then
        (Number.truncate (measure numeral unit)).toOption else none := by
    cases unit <;> rfl
  rw [hread]
  split
  next h =>
    rw [Bool.and_eq_true, Bool.not_eq_true', decide_eq_false_iff_not] at h
    cases ht : Number.truncate (measure numeral unit) <;> simp [h, Except.toOption]
  next h =>
    rw [Bool.and_eq_true, Bool.not_eq_true', decide_eq_false_iff_not] at h
    constructor
    · nofun
    · rintro ⟨hfinite, hnonneg, -⟩
      exact absurd ⟨hfinite, hnonneg⟩ h

theorem TimeUnit.not_blank (unit : TimeUnit) : ∀ c ∈ unit.text, isBlank c = false := by
  have hall : unit.text.all (!isBlank ·) = true := by cases unit <;> decide
  simpa using hall

theorem TimeUnit.text_ne_nil (unit : TimeUnit) : unit.text ≠ [] := by
  cases unit <;> decide

/-- No character of a numeral stands between a numeral and its unit, nor begins the unit. -/
theorem stops_mid_unit {mid : List Char} (hmid : Blanks mid) (unit : TimeUnit) :
    Stops Numeral.isNumeric (mid ++ unit.text) := by
  cases mid with
  | nil => cases unit <;> exact stops_cons.mpr (by decide)
  | cons c mid =>
    refine stops_cons.mpr (Bool.eq_false_iff.mpr fun hc => ?_)
    have hblank := hmid c List.mem_cons_self
    rw [Numeral.not_blank_of_isNumeric hc] at hblank
    cases hblank

theorem readForm?_append {pre numeral mid rest : List Char} (unit : TimeUnit) (hpre : Blanks pre)
    (hnumeral : Numeral.pattern.Matches numeral) (hmid : Blanks mid)
    (hrest : Stops (!isBlank ·) rest) :
    readForm? (pre ++ (numeral ++ (mid ++ (unit.text ++ rest)))) =
      (readEasing? (words rest)).bind fun (name, easing) =>
        (readLength? numeral unit).map fun length => ⟨length, name, easing⟩ := by
  have hhead := head?_append hpre hnumeral hmid unit.not_blank unit.text_ne_nil
    (stops_mid_unit hmid unit) hrest
  have hunit : TimeUnit.ofText? unit.text = some unit := TimeUnit.ofText?_eq_some_iff.mpr rfl
  rw [readForm?, hhead, Option.bind_eq_bind, Option.bind_some, hunit, Option.bind_eq_bind,
    Option.bind_some]
  rcases readEasing? (words rest) with _ | ⟨name, easing⟩
  · rfl
  · cases readLength? numeral unit <;> rfl

theorem exists_of_readForm? {text : List Char} {d : Description} (h : readForm? text = some d) :
    ∃ pre mid, ∃ head : Head, ∃ unit : TimeUnit, head? text = some head ∧ head.unit = unit.text ∧
      text = pre ++ (head.numeral ++ (mid ++ (unit.text ++ head.rest))) ∧ Blanks pre ∧
      Numeral.pattern.Matches head.numeral ∧ Blanks mid ∧ Stops (!isBlank ·) head.rest := by
  rw [readForm?, Option.bind_eq_bind, Option.bind_eq_some_iff] at h
  obtain ⟨head, hhead, h⟩ := h
  rw [Option.bind_eq_bind, Option.bind_eq_some_iff] at h
  obtain ⟨unit, hunit, -⟩ := h
  have hunit := TimeUnit.ofText?_eq_some_iff.mp hunit
  obtain ⟨pre, mid, htext, hpre, hnumeral, hmid, -, -, hrest⟩ := append_of_head? hhead
  rw [hunit] at htext
  exact ⟨pre, mid, head, unit, hhead, hunit, htext, hpre, hnumeral, hmid, hrest⟩

theorem not_matches_unsignedPattern {front rest : List Char} (unit : TimeUnit) :
    ¬Whole.unsignedPattern.Matches (front ++ (unit.text ++ rest)) := by
  intro h
  obtain ⟨pre, digits, post, htext, hpre, -, hdigits, hpost⟩ := Whole.matches_unsignedPattern h
  have hs : 's' ∈ pre ++ (digits ++ post) := by
    rw [← htext]
    cases unit <;> simp [TimeUnit.text]
  rcases List.mem_append.mp hs with hs | hs
  · exact absurd (hpre _ hs) (by decide)
  · rcases List.mem_append.mp hs with hs | hs
    · exact absurd (hdigits _ hs) (by decide)
    · exact absurd (hpost _ hs) (by decide)

/-- Where a whole number alone is not refused, a text that is one has its value. -/
theorem read?_of_whole {text : String} (hmatches : Whole.unsignedPattern.Matches text.toList)
    (hok : (Whole.value text.toList).isOk = true) :
    ∃ n, Whole.value text.toList = .ok n ∧
      read? text = .ok (some ⟨n, "circle", .named .circle⟩) := by
  rw [read?, if_pos (Pattern.fits_iff.mpr hmatches)]
  cases hvalue : Whole.value text.toList with
  | error fault =>
    rw [hvalue] at hok
    cases hok
  | ok n => exact ⟨n, rfl, rfl⟩

theorem read?_of_not_whole {text : String} (h : ¬Whole.unsignedPattern.Matches text.toList) :
    read? text = .ok (readForm? text.toList) := by
  rw [read?, if_neg (mt Pattern.fits_iff.mp h)]

theorem spells_of_readForm? {text : List Char} {d : Description} (h : readForm? text = some d) :
    Spells text d := by
  obtain ⟨pre, mid, head, unit, -, -, rfl, hpre, hnumeral, hmid, hrest⟩ := exists_of_readForm? h
  rw [readForm?_append unit hpre hnumeral hmid hrest, Option.bind_eq_some_iff] at h
  obtain ⟨⟨name, easing⟩, heasing, h⟩ := h
  obtain ⟨length, hlength, rfl⟩ := Option.map_eq_some_iff.mp h
  obtain ⟨hfinite, hnonneg, hlength⟩ := readLength?_eq_some_iff.mp hlength
  exact .form hpre hnumeral hmid hrest (readEasing?_eq_some_iff.mp heasing) hfinite hnonneg hlength

theorem read?_of_spells {text : String} {d : Description} (h : Spells text.toList d)
    (hwhole : Whole.unsignedPattern.Matches text.toList →
      (Whole.value text.toList).isOk = true) : read? text = .ok (some d) := by
  generalize htext : text.toList = chars at h
  cases h with
  | @whole pre digits post hpre hne hdigits hpost =>
    have hmatches : Whole.unsignedPattern.Matches text.toList := by
      rw [htext]
      exact Whole.unsignedPattern_matches hpre hne hdigits hpost
    obtain ⟨n, hvalue, hread⟩ := read?_of_whole hmatches (hwhole hmatches)
    rw [htext] at hvalue
    rw [hread, (Whole.value_eq_of_ok hpre hne hdigits hpost hvalue).1]
  | @form pre numeral mid rest unit length name easing hpre hnumeral hmid hrest heasing hfinite
      hnonneg hlength =>
    have hnot : ¬Whole.unsignedPattern.Matches text.toList := by
      have h : ¬Whole.unsignedPattern.Matches ((pre ++ (numeral ++ mid)) ++ (unit.text ++ rest)) :=
        not_matches_unsignedPattern unit
      simpa only [htext, List.append_assoc] using h
    rw [read?_of_not_whole hnot, htext, readForm?_append unit hpre hnumeral hmid hrest,
      readEasing?_eq_some_iff.mpr heasing, Option.bind_some,
      readLength?_eq_some_iff.mpr ⟨hfinite, hnonneg, hlength⟩]
    rfl

theorem spells_of_read? {text : String} {d : Description} (h : read? text = .ok (some d)) :
    Spells text.toList d := by
  by_cases hmatches : Whole.unsignedPattern.Matches text.toList
  · obtain ⟨pre, digits, post, htext, hpre, hne, hdigits, hpost⟩ :=
      Whole.matches_unsignedPattern hmatches
    rw [read?, if_pos (Pattern.fits_iff.mpr hmatches)] at h
    split at h
    next n hvalue =>
      obtain rfl := Option.some.inj (Except.ok.inj h)
      rw [htext] at hvalue ⊢
      rw [(Whole.value_eq_of_ok hpre hne hdigits hpost hvalue).1]
      exact .whole hpre hne hdigits hpost
    next => cases h
  · rw [read?_of_not_whole hmatches] at h
    exact spells_of_readForm? (Except.ok.inj h)

theorem append_inj_of_blanks {pre pre' a a' : List Char} (hpre : Blanks pre) (hpre' : Blanks pre')
    (ha : Stops isBlank a) (ha' : Stops isBlank a') (h : pre ++ a = pre' ++ a') : a = a' := by
  rw [← dropWhile_append hpre ha, h, dropWhile_append hpre' ha']

/-- A text is refused when its numeral has left characters of a longer numeral to the unit. -/
theorem readForm?_of_longer {text : List Char} {head : Head} (hhead : head? text = some head)
    {pre more rest : List Char} (htext : text = pre ++ (head.numeral ++ (more ++ rest)))
    (hpre : Blanks pre) (hne : more ≠ [])
    (hlonger : Numeral.pattern.Matches (head.numeral ++ more)) : readForm? text = none := by
  apply Option.eq_none_iff_forall_ne_some.mpr
  intro d hd
  obtain ⟨pre', mid, head', unit, hhead', -, htext', hpre', hnumeral, hmid, -⟩ :=
    exists_of_readForm? hd
  obtain rfl := Option.some.inj (hhead.symm.trans hhead')
  have hfirst : ∀ tail, Stops isBlank (head.numeral ++ tail) := fun tail =>
    (stops_of_forall fun c hc => Numeral.not_blank_of_isNumeric
      (Numeral.isNumeric_of_matches hnumeral c hc)).append (Numeral.ne_nil_of_matches hnumeral) tail
  have htail := append_inj_of_blanks hpre hpre' (hfirst _) (hfirst _) (htext.symm.trans htext')
  have htail := List.append_cancel_left htail
  -- The longer numeral would begin the unit, or the blanks before it, with one of its characters.
  obtain ⟨c, more, rfl⟩ := List.exists_cons_of_ne_nil hne
  have hc : Numeral.isNumeric c = true := Numeral.isNumeric_of_matches hlonger c (by simp)
  have hstop := (stops_mid_unit hmid unit).append (by simp [unit.text_ne_nil]) head.rest
  rw [List.append_assoc, ← htail] at hstop
  rw [List.cons_append, stops_cons, hc] at hstop
  cases hstop

/-- Blanks count only where they separate: their kinds and numbers do not, nor whether there are
any before the numeral and before the unit. -/
theorem readForm?_respaced {pre pre' numeral mid mid' rest rest' : List Char} (unit : TimeUnit)
    (hpre : Blanks pre) (hpre' : Blanks pre') (hnumeral : Numeral.pattern.Matches numeral)
    (hmid : Blanks mid) (hmid' : Blanks mid') (hrest : Stops (!isBlank ·) rest)
    (hrest' : Stops (!isBlank ·) rest') (hwords : words rest = words rest') :
    readForm? (pre ++ (numeral ++ (mid ++ (unit.text ++ rest)))) =
      readForm? (pre' ++ (numeral ++ (mid' ++ (unit.text ++ rest')))) := by
  rw [readForm?_append unit hpre hnumeral hmid hrest,
    readForm?_append unit hpre' hnumeral hmid' hrest', hwords]

/-- Reading accepts exactly the texts of the grammar, and gives what they describe. Blanks only
separate, and no text is accepted for a numeral that could have been longer. -/
theorem read?_eq_some_iff (text : String)
    (hwhole : Whole.unsignedPattern.Matches text.toList →
      (Whole.value text.toList).isOk = true) :
    (∃ o, read? text = .ok o ∧ ∀ d, o = some d ↔ Spells text.toList d) ∧
    (∀ x : Float, x.isFinite = true → ∃ n, Number.truncate x = .ok n) ∧
    (∀ head, head? text.toList = some head → ∀ pre more rest,
      text.toList = pre ++ (head.numeral ++ (more ++ rest)) → Blanks pre → more ≠ [] →
        Numeral.pattern.Matches (head.numeral ++ more) → readForm? text.toList = none) ∧
    ∀ (unit : TimeUnit) (pre numeral mid rest pre' mid' rest' : List Char),
      text.toList = pre ++ (numeral ++ (mid ++ (unit.text ++ rest))) →
      Blanks pre → Blanks pre' → Numeral.pattern.Matches numeral → Blanks mid → Blanks mid' →
      Stops (!isBlank ·) rest → Stops (!isBlank ·) rest' → words rest = words rest' →
        read? (String.ofList (pre' ++ (numeral ++ (mid' ++ (unit.text ++ rest'))))) =
          read? text := by
  refine ⟨?_, fun x hx => Number.exists_truncate hx, ?_, ?_⟩
  · have hread : ∃ o, read? text = .ok o := by
      by_cases hmatches : Whole.unsignedPattern.Matches text.toList
      · obtain ⟨n, -, hread⟩ := read?_of_whole hmatches (hwhole hmatches)
        exact ⟨_, hread⟩
      · exact ⟨_, read?_of_not_whole hmatches⟩
    obtain ⟨o, ho⟩ := hread
    refine ⟨o, ho, fun d => ⟨?_, fun h => ?_⟩⟩
    · rintro rfl
      exact spells_of_read? ho
    · exact Except.ok.inj (ho.symm.trans (read?_of_spells h hwhole))
  · intro head hhead pre more rest htext hpre hne hlonger
    exact readForm?_of_longer hhead htext hpre hne hlonger
  · intro unit pre numeral mid rest pre' mid' rest' htext hpre hpre' hnumeral hmid hmid' hrest
      hrest' hwords
    have hnot : ∀ front rest : List Char, ∀ text : String,
        text.toList = front ++ (unit.text ++ rest) →
          ¬Whole.unsignedPattern.Matches text.toList := by
      rintro front rest text h
      rw [h]
      exact not_matches_unsignedPattern unit
    rw [read?_of_not_whole (hnot (pre ++ (numeral ++ mid)) rest text (by simp [htext])),
      read?_of_not_whole (hnot (pre' ++ (numeral ++ mid')) rest' _ (by simp)),
      htext, String.toList_ofList]
    exact congrArg Except.ok
      (readForm?_respaced unit hpre hpre' hnumeral hmid hmid' hrest hrest' hwords).symm

/-- One and a half seconds, with the unit on its own and a curve of two coordinates. -/
theorem read?_eq_some_iff_of_curve :
    ∃ d, read? " +1.5e0 s\tcubic-bezier .25 1e-1" = .ok (some d) ∧ d.length = 1500 ∧
      d.easingName = (Bezier.mk 0.25 0.1 1.0 1.0).name := by
  have hnot : ¬Whole.unsignedPattern.Matches " +1.5e0 s\tcubic-bezier .25 1e-1".toList := by
    rw [← Pattern.fits_iff]
    decide
  obtain ⟨⟨o, ho, hiff⟩, -⟩ := read?_eq_some_iff " +1.5e0 s\tcubic-bezier .25 1e-1"
    fun h => absurd h hnot
  have hnumerals : ∀ n ∈ [".25".toList, "1e-1".toList], Numeral.pattern.Matches n := by
    simp only [← Pattern.fits_iff]
    decide
  have hread : readLength? "+1.5e0".toList .seconds = some 1500 := by decide
  obtain ⟨hfinite, hnonneg, hlength⟩ := readLength?_eq_some_iff.mp hread
  have hblank : Blanks [' '] := by decide
  have hnumeral : Numeral.pattern.Matches "+1.5e0".toList := Pattern.fits_iff.mp (by decide)
  have hrest : Stops (!isBlank ·) "\tcubic-bezier .25 1e-1".toList := stops_cons.mpr (by decide)
  have hwords : words "\tcubic-bezier .25 1e-1".toList =
      ["cubic-bezier".toList, ".25".toList, "1e-1".toList] := by decide
  have heasing := NamesEasing.bezier hnumerals (by decide)
  rw [← hwords] at heasing
  have hspells := Spells.form hblank hnumeral hblank hrest heasing hfinite hnonneg hlength
  exact ⟨_, ho.trans (congrArg Except.ok ((hiff _).mpr hspells)), rfl, by decide⟩

end Description

end Tween

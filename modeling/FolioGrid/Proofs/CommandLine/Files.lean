/-
  FolioGrid.Proofs.CommandLine.Files
  ────────────────────────────────
  **ALL OR NOTHING.**

  A run writes its output or nothing.  Whatever can go wrong, goes wrong before a file is
  touched: a misuse of the flags, a value that is refused, a dialect that is unknown, an
  input that cannot be read, a document that cannot be converted, an output that cannot
  be opened.

      WritesWidth — a text is a number from 1 to 1000 in decimal, behind what may
                    stand in front of a width
      valuesOf    — the values of a flag among some arguments, in order

  Main result: `runOn_all_or_nothing`.  It holds on every volume, so also where two paths
  lead to one file, and where a file can be read but not written.
-/
import FolioGrid.CommandLine.Run
import FolioGrid.Proofs.Failure
import FolioGrid.Proofs.Text.Plain

namespace FolioGrid.CommandLine

open FolioGrid.Text

/-! ## §1. Grid widths. -/

/-- A text writes a grid width: white, a plus sign or none, zeros, and the decimal form of
a number from 1 to 1000. -/
def WritesWidth (t : Text) (n : Nat) : Prop :=
  (1 ≤ n ∧ n ≤ 1000) ∧
    ∃ (white sign : Text) (zeros : Nat), (∀ b ∈ white, isSpace b = true)
      ∧ (sign = [] ∨ sign = [ascii '+'])
      ∧ t = white ++ sign ++ (List.replicate zeros (ascii '0') ++ natDecimal n)

/-- What `dropPlus` takes off is a plus sign or nothing. -/
theorem exists_sign (t : Text) :
    ∃ sign, (sign = [] ∨ sign = [ascii '+']) ∧ t = sign ++ dropPlus t := by
  cases t with
  | nil => exact ⟨[], Or.inl rfl, rfl⟩
  | cons b rest =>
    by_cases hb : b = ascii '+'
    · exact ⟨[ascii '+'], Or.inr rfl, by rw [dropPlus, if_pos hb, hb]; rfl⟩
    · exact ⟨[], Or.inl rfl, by rw [dropPlus, if_neg hb]; rfl⟩

/-- White and a plus sign in front of a numeral are taken off, and no more. -/
theorem dropPlus_dropWhile {white sign u : Text} (hwhite : ∀ b ∈ white, isSpace b = true)
    (hsign : sign = [] ∨ sign = [ascii '+']) (hu : isNumeral u = true) :
    dropPlus ((white ++ sign ++ u).dropWhile isSpace) = u := by
  cases u with
  | nil => cases hu
  | cons b rest =>
    have hdigit : isDigit b = true := by
      rw [isNumeral, Bool.and_eq_true, List.all_cons, Bool.and_eq_true] at hu
      exact hu.2.1
    have hplus : b ≠ ascii '+' := by
      rintro rfl
      exact absurd hdigit (by decide)
    rw [List.append_assoc, List.dropWhile_append_of_pos hwhite]
    rcases hsign with rfl | rfl
    · rw [List.nil_append, List.dropWhile_cons_of_neg (by simp [isSpace_of_isDigit hdigit]),
        dropPlus, if_neg hplus]
    · rfl

/-- A width is read from what stands behind white and a plus sign. -/
theorem width?_eq_some_iff_digits {t : Text} {n : Nat} :
    width? t = some n ↔ (1 ≤ n ∧ n ≤ 1000)
      ∧ ∃ k, dropPlus (t.dropWhile isSpace) = List.replicate k (ascii '0') ++ natDecimal n := by
  rw [← isNumeral_and_value_iff]
  unfold width?
  dsimp only
  rw [Option.ite_none_right_eq_some, Option.some.injEq]
  constructor
  · rintro ⟨⟨hnumeral, hrange⟩, rfl⟩
    exact ⟨hrange, hnumeral, rfl⟩
  · rintro ⟨hrange, hnumeral, rfl⟩
    exact ⟨⟨hnumeral, hrange⟩, rfl⟩

/-- **A width is read** exactly where one is written. -/
theorem width?_eq_some_iff {t : Text} {n : Nat} : width? t = some n ↔ WritesWidth t n := by
  rw [width?_eq_some_iff_digits]
  refine and_congr_right fun _ => ?_
  constructor
  · rintro ⟨k, hk⟩
    obtain ⟨sign, hsign, hrest⟩ := exists_sign (t.dropWhile isSpace)
    refine ⟨t.takeWhile isSpace, sign, k, fun b => List.mem_takeWhile_imp, hsign, ?_⟩
    rw [← hk, List.append_assoc, ← hrest, List.takeWhile_append_dropWhile]
  · rintro ⟨white, sign, k, hwhite, hsign, rfl⟩
    exact ⟨k, dropPlus_dropWhile hwhite hsign (isNumeral_and_value_iff.2 ⟨k, rfl⟩).1⟩

/-- No text writes two widths. -/
theorem WritesWidth.unique {t : Text} {m n : Nat} (hm : WritesWidth t m) (hn : WritesWidth t n) :
    m = n :=
  Option.some.inj ((width?_eq_some_iff.2 hm).symm.trans (width?_eq_some_iff.2 hn))

/-! ## §2. Flags and their values. -/

/-- The value of an occurrence of a flag. -/
def valueOf? (flag : Flag) : Occurrence → Option Text
  | .ok (f, value) => if f = flag then some value else none
  | .error _ => none

/-- The values of a flag among some arguments, in order. -/
def valuesOf (flag : Flag) (arguments : List Text) : List Text :=
  (occurrences (arguments.map printable)).filterMap (valueOf? flag)

/-- The dialects by their names. -/
theorem Dialect.eq_of_named {name : Text} {d : Dialect} (h : Dialect.named name = .ok d) :
    ((name = [] ∨ name = utf8 "none") ∧ d = Dialect.plain)
      ∨ (name = utf8 "siku-mulu" ∧ d = Catalogue.dialect) := by
  unfold Dialect.named at h
  split at h
  · next hplain =>
    cases h
    exact Or.inl ⟨hplain, rfl⟩
  · split at h
    · next entry hentry =>
      cases h
      have hname := List.find?_some hentry
      have hmem := List.mem_of_find?_eq_some hentry
      rw [Dialect.available, List.mem_singleton] at hmem
      subst hmem
      exact Or.inr ⟨(of_decide_eq_true hname).symm, rfl⟩
    · cases h

/-- What flags gave, if none of them stopped the program: the last one of a kind counts. -/
structure Values.Follows (start : Values) (os : List Occurrence) (result : Values) : Prop where
  /-- The file to read. -/
  input : result.input = (os.filterMap (valueOf? .input)).getLast?.getD start.input
  /-- The file to write. -/
  output : result.output = (os.filterMap (valueOf? .output)).getLast?.getD start.output
  /-- The dialect's name. -/
  dialect : result.dialect = (os.filterMap (valueOf? .dialect)).getLast?.getD start.dialect
  /-- The grid width, which every flag of it writes. -/
  widths : ∀ t ∈ os.filterMap (valueOf? .width), (width? t).isSome = true
  /-- And the last of them is the one. -/
  width : result.width = ((os.filterMap (valueOf? .width)).getLast?.map width?).getD start.width

/-- **Following flags to their end** takes the last one of each kind. -/
theorem Values.follows_of_followAll {os : List Occurrence} {start result : Values}
    (h : start.followAll os = .ok result) : start.Follows os result := by
  -- induction on the flags: each takes the place of what was given before
  induction os generalizing start with
  | nil =>
    cases h
    exact ⟨rfl, rfl, rfl, by simp, rfl⟩
  | cons o rest ih =>
    cases o with
    | error m => cases h
    | ok pair =>
      obtain ⟨flag, value⟩ := pair
      obtain ⟨next, hnext, h⟩ := bind_eq_ok.1 h
      have hrest := ih h
      cases flag with
      | input =>
        cases hnext
        refine ⟨?_, hrest.output, hrest.dialect, hrest.widths, hrest.width⟩
        simpa [valueOf?, List.getLast?_cons] using hrest.input
      | output =>
        cases hnext
        refine ⟨hrest.input, ?_, hrest.dialect, hrest.widths, hrest.width⟩
        simpa [valueOf?, List.getLast?_cons] using hrest.output
      | dialect =>
        cases hnext
        refine ⟨hrest.input, hrest.output, ?_, hrest.widths, hrest.width⟩
        simpa [valueOf?, List.getLast?_cons] using hrest.dialect
      | width =>
        unfold Values.follow at hnext
        dsimp only at hnext
        split at hnext
        · next n hn =>
          cases hnext
          refine ⟨hrest.input, hrest.output, hrest.dialect, ?_, ?_⟩
          · simpa [valueOf?, hn] using hrest.widths
          · have hwidth := hrest.width
            dsimp only at hwidth
            rw [hwidth, ← hn]
            cases hlast : (rest.filterMap (valueOf? .width)).getLast? with
            | none => simp [valueOf?, List.getLast?_cons, hlast]
            | some w => simp [valueOf?, List.getLast?_cons, hlast]
        · cases hnext
      | help => cases hnext

/-! ## §3. Requests. -/

variable {v : Volume} {arguments : List Text} {directory : Directory} {r : Request}

/-- The grid width that the flags asked for: the one that the last width among them writes,
and the standard one if there is none. -/
theorem exists_width {values : List Text} (h : ∀ t ∈ values, (width? t).isSome = true) :
    ∃ n : Nat, ((values = [] ∧ n = 21) ∨ ∃ t, values.getLast? = some t ∧ WritesWidth t n)
      ∧ settingsFor (values.getLast?.bind width?) = { Settings.standard with width := n } := by
  cases hlast : values.getLast? with
  | none => exact ⟨21, Or.inl ⟨List.getLast?_eq_none_iff.1 hlast, rfl⟩, rfl⟩
  | some t =>
    obtain ⟨n, hn⟩ := Option.isSome_iff_exists.1 (h t (List.mem_of_getLast? hlast))
    refine ⟨n, Or.inr ⟨t, rfl, width?_eq_some_iff.1 hn⟩, ?_⟩
    rw [Option.bind_some, hn]
    rfl

/-- A request says what the flags said: it has an input and an output, a width in range if
any was given, and one of the known dialects. -/
theorem exists_of_request (h : request arguments = .ok r) :
    (valuesOf .input arguments).getLast? = some r.input ∧ r.input ≠ []
      ∧ (valuesOf .output arguments).getLast? = some r.output ∧ r.output ≠ []
      ∧ (∀ t ∈ valuesOf .width arguments, (width? t).isSome = true)
      ∧ r.settings = settingsFor ((valuesOf .width arguments).getLast?.bind width?)
      ∧ Dialect.named ((valuesOf .dialect arguments).getLast?.getD []) = .ok r.dialect := by
  obtain ⟨values, hfollow, h⟩ := bind_eq_ok.1 h
  have hvalues := Values.follows_of_followAll hfollow
  -- a value that was given is the last one, since there was none at the start
  have given : ∀ {l : List Text}, l.getLast?.getD [] ≠ [] →
      l.getLast? = some (l.getLast?.getD []) := by
    intro l hl
    cases hlast : l.getLast? with
    | none => simp [hlast] at hl
    | some t => rfl
  unfold Values.request at h
  split at h
  · cases h
  · next hnamed =>
    rw [not_or] at hnamed
    split at h
    · cases h
    · next d hd =>
      cases h
      refine ⟨?_, hnamed.1, ?_, hnamed.2, hvalues.widths, ?_, ?_⟩
      · have hinput := hvalues.input
        rw [hinput] at hnamed ⊢
        exact given hnamed.1
      · have houtput := hvalues.output
        rw [houtput] at hnamed ⊢
        exact given hnamed.2
      · show settingsFor values.width = _
        rw [hvalues.width]
        unfold valuesOf
        cases (List.filterMap (valueOf? .width) (occurrences (arguments.map printable))).getLast? with
        | none => rfl
        | some t => rfl
      · rw [← hd, hvalues.dialect]
        rfl

/-! ## §4. Runs. -/

/-- Of the reasons to stop, only a request for help is no failure. -/
theorem Stop.status_eq_zero_iff {stop : Stop} : stop.status = 0 ↔ stop = .help := by
  cases stop <;> simp [Stop.status]

/-- The help has something to say, so no run that says nothing has printed it. -/
theorem help_ne_nil : usage ++ helpText ≠ [] := by
  simp [usage, printedLine]

/-- A request that failed has changed nothing, and one that was met has written its output. -/
theorem Request.runOn_cases (v : Volume) (r : Request) (directory : Directory) :
    (r.runOn v directory).answer = [] ∧
      (((r.runOn v directory).status = 1 ∧ (r.runOn v directory).directory = directory)
      ∨ ∃ source content target c,
        v.source? directory r.input = some source ∧ directory.get? source = some content
          ∧ v.target? directory r.output = some target
          ∧ (FolioGrid.convert r.settings r.dialect content).value = .ok c
          ∧ (r.runOn v directory).status = 0
          ∧ (r.runOn v directory).directory = directory.insert target c.output) := by
  unfold Request.runOn
  dsimp only
  split
  · exact ⟨rfl, Or.inl ⟨rfl, rfl⟩⟩
  · next c hc =>
    split
    · exact ⟨rfl, Or.inl ⟨rfl, rfl⟩⟩
    · next target htarget =>
      -- only what could be read has been converted
      cases hcontent : v.contentAt? directory r.input with
      | none =>
        rw [hcontent] at hc
        cases hc
      | some content =>
        rw [hcontent] at hc
        obtain ⟨source, hsource, hget⟩ := Option.bind_eq_some_iff.1 hcontent
        exact ⟨rfl, Or.inr ⟨source, content, target, c, hsource, hget, htarget, hc, rfl, rfl⟩⟩

/-- **A run writes its output or nothing.**  If it exits with another status than nought, or
if it printed the help, all files are as they were.  If it exits with nought and printed no
help, it had an input and an output, the last of each, widths from 1 to 1000 only, and one
of the known dialects; the output file then holds the conversion of what the input file
held before, on a grid of the last width, or of 21 if none was given, and all other files
are as they were. -/
theorem runOn_all_or_nothing (v : Volume) (arguments : List Text) (directory : Directory) :
    ((runOn v arguments directory).status ≠ 0
        ∨ (runOn v arguments directory).answer = usage ++ helpText →
      (runOn v arguments directory).directory = directory)
    ∧ ((runOn v arguments directory).status = 0 →
      (runOn v arguments directory).answer ≠ usage ++ helpText →
      ∃ (input output source target content : Text) (n : Nat) (d : Dialect) (c : Conversion),
        (valuesOf .input arguments).getLast? = some input ∧ input ≠ []
          ∧ (valuesOf .output arguments).getLast? = some output ∧ output ≠ []
          ∧ (∀ t ∈ valuesOf .width arguments, ∃ m, WritesWidth t m)
          ∧ ((valuesOf .width arguments = [] ∧ n = 21)
            ∨ ∃ t, (valuesOf .width arguments).getLast? = some t ∧ WritesWidth t n)
          ∧ (let name := (valuesOf .dialect arguments).getLast?.getD []
            ((name = [] ∨ name = utf8 "none") ∧ d = Dialect.plain)
              ∨ (name = utf8 "siku-mulu" ∧ d = Catalogue.dialect))
          ∧ v.source? directory input = some source ∧ directory.get? source = some content
          ∧ v.target? directory output = some target
          ∧ (convert { Settings.standard with width := n } d content).value = .ok c
          ∧ (runOn v arguments directory).directory.get? target = some c.output
          ∧ ∀ name, name ≠ target →
            (runOn v arguments directory).directory.get? name = directory.get? name) := by
  unfold runOn
  cases hrequest : request arguments with
  | error stop =>
    refine ⟨fun _ => rfl, ?_⟩
    intro hstatus hanswer
    rw [Stop.status_eq_zero_iff.1 hstatus] at hanswer
    exact absurd rfl hanswer
  | ok r =>
    dsimp only
    obtain ⟨hinput, hin, houtput, hout, hwidths, hsettings, hdialect⟩ := exists_of_request hrequest
    obtain ⟨hanswer, hcases⟩ := Request.runOn_cases v r directory
    rcases hcases with ⟨hone, hsame⟩ | hdone
    · refine ⟨fun _ => hsame, ?_⟩
      intro hzero
      rw [hone] at hzero
      exact absurd hzero (by decide)
    · obtain ⟨source, content, target, c, hsource, hget, htarget, hc, hzero, hafter⟩ := hdone
      constructor
      · rintro (hstatus | hhelp)
        · exact absurd hzero hstatus
        · rw [hanswer] at hhelp
          exact absurd hhelp.symm help_ne_nil
      · intro _ _
        obtain ⟨n, hn, hgrid⟩ := exists_width hwidths
        refine ⟨r.input, r.output, source, target, content, n, r.dialect, c, hinput, hin,
          houtput, hout, ?_, hn, Dialect.eq_of_named hdialect, hsource, hget, htarget, ?_, ?_, ?_⟩
        · intro t ht
          obtain ⟨m, hm⟩ := Option.isSome_iff_exists.1 (hwidths t ht)
          exact ⟨m, width?_eq_some_iff.1 hm⟩
        · rw [← hgrid, ← hsettings]
          exact hc
        · rw [hafter, Table.get?_insert, if_pos rfl]
        · intro name hname
          rw [hafter, Table.get?_insert, if_neg hname]

/-- A document that is to be written in its own place, on a narrow grid. -/
def ownPlace : List Text :=
  [utf8 "-i", utf8 "a.tex", utf8 "-n", utf8 " +04", utf8 "-p", utf8 "siku-mulu", utf8 "-o",
    utf8 "./a.tex"]

/-- The text of that document: an annotation, which is laid out in two sub-columns. -/
def ownPlaceText : Text :=
  documentBegin ++ [lineFeed] ++ utf8 "\\注\x7b天地玄黃\x7d" ++ [lineFeed] ++ documentEnd

/-- The file of that document. -/
def ownPlaceDirectory : Directory := Table.empty.insert (utf8 "a.tex") ownPlaceText

/-- What becomes of that text on a grid of some width, read in some dialect. -/
def ownPlaceOutput (n : Nat) (d : Dialect) : Option Text :=
  (convert { Settings.standard with width := n } d ownPlaceText).value.toOption.map (·.output)

/-- The page on a grid of four: two characters fit below the indent. -/
def narrowPage : Text :=
  documentBegin ++ [lineFeed, lineFeed] ++ utf8 "\\begin\x7b数字化内容\x7d" ++ [lineFeed]
    ++ utf8 "\\缩进[2]\\双列\x7b\\右小列\x7b天地\x7d\\左小列\x7b玄黃\x7d\x7d" ++ [lineFeed, lineFeed]
    ++ utf8 "\\end\x7b数字化内容\x7d" ++ [lineFeed] ++ documentEnd ++ [lineFeed]

/-- A document can take its own place: it is read before it is written.  What it is written
as depends on the width and on the dialect. -/
theorem runOn_ownPlace :
    let after := runOn .plain ownPlace ownPlaceDirectory
    after.status = 0 ∧ after.answer ≠ usage ++ helpText
      ∧ after.directory.get? (utf8 "a.tex") = ownPlaceOutput 4 Catalogue.dialect
      ∧ ownPlaceOutput 4 Catalogue.dialect = some narrowPage
      ∧ ownPlaceOutput 21 Catalogue.dialect ≠ some narrowPage
      ∧ ownPlaceOutput 4 Dialect.plain ≠ some narrowPage := by
  intro after
  have hstatus : after.status = 0 := by decide +kernel
  have hanswer : after.answer ≠ usage ++ helpText := by decide +kernel
  refine ⟨hstatus, hanswer, ?_, by decide +kernel, by decide +kernel, by decide +kernel⟩
  obtain ⟨input, output, source, target, content, n, d, c, hinput, -, houtput, -, -, hn, hd,
    hsource, hget, htarget, hc, hafter, -⟩ :=
    (runOn_all_or_nothing .plain ownPlace ownPlaceDirectory).2 hstatus hanswer
  have hin : (valuesOf .input ownPlace).getLast? = some (utf8 "a.tex") := by decide +kernel
  have hout : (valuesOf .output ownPlace).getLast? = some (utf8 "./a.tex") := by decide +kernel
  have hwidth : valuesOf .width ownPlace = [utf8 " +04"] := by decide +kernel
  have hname : (valuesOf .dialect ownPlace).getLast?.getD [] = utf8 "siku-mulu" := by
    decide +kernel
  have hfrom : fileName? (utf8 "a.tex") = some (utf8 "a.tex") := by decide +kernel
  have hto : fileName? (utf8 "./a.tex") = some (utf8 "a.tex") := by decide +kernel
  have hfile : ownPlaceDirectory.get? (utf8 "a.tex") = some ownPlaceText := by decide +kernel
  -- both paths lead to the one file
  rw [← Option.some.inj (hin.symm.trans hinput)] at hsource
  rw [← Option.some.inj (hout.symm.trans houtput)] at htarget
  rw [← Option.some.inj (hfrom.symm.trans hsource)] at hget
  rw [← Option.some.inj (hto.symm.trans htarget)] at hafter
  have hcontent : content = ownPlaceText := Option.some.inj (hget.symm.trans hfile)
  -- the width is four
  have hfour : WritesWidth (utf8 " +04") 4 := by
    refine ⟨by decide, utf8 " ", utf8 "+", 1, by decide +kernel, Or.inr rfl, ?_⟩
    rw [natDecimal_of_lt (by decide)]
    rfl
  have hn4 : n = 4 := by
    rw [hwidth] at hn
    rcases hn with ⟨hnone, -⟩ | ⟨t, ht, hwrites⟩
    · cases hnone
    · cases ht
      exact hwrites.unique hfour
  -- and the dialect is the catalogue's
  have hcatalogue : d = Catalogue.dialect := by
    rw [hname] at hd
    rcases hd with ⟨hplain | hplain, -⟩ | ⟨-, h⟩
    · exact absurd hplain (by decide)
    · exact absurd hplain (by decide)
    · exact h
  rw [hcontent, hn4, hcatalogue] at hc
  rw [hafter]
  unfold ownPlaceOutput
  rw [hc]
  rfl

end FolioGrid.CommandLine

import HotSpot.Lib.Runs
import Mathlib.Data.Int.Notation
import Mathlib.Logic.Function.Basic

/-! # Cleaning a card in parallel

One thread scans a card and cleans it with `clear_card` while others write references into it with
`write_ref_field_gc_par`. Each read, each store and each compare-and-swap of the card is a step.
-/

/-! ## The values of a card

`CardTableModRefBS` has a byte for each card, and `CardTableRS` extends the values that it takes.
-/

namespace HotSpot.CardTable

def cleanCard : Int := -1
def dirtyCard : Int := 0
def precleanedCard : Int := 1
def lastReserved : Int := 16

/-- Dirty and precleaned are equivalent for an iteration over the younger references. -/
def cardIsDirtyWrtGenIter (value : Int) : Bool := value == dirtyCard || value == precleanedCard

def youngergenCard : Int := lastReserved + 1
def youngergenP1Card : Int := lastReserved + 2
def curYoungergenAndPrevNoncleanCard : Int := lastReserved + 5

/-- The values that can be the current one. -/
def IsYoungergen (value : Int) : Prop :=
  youngergenCard ≤ value ∧ value < curYoungergenAndPrevNoncleanCard

instance (value : Int) : Decidable (IsYoungergen value) :=
  inferInstanceAs (Decidable (_ ∧ _))

def isPrevYoungergenCardVal (cur value : Int) : Bool :=
  decide (youngergenCard ≤ value) && decide (value < curYoungergenAndPrevNoncleanCard) &&
    value != cur

/-- The values of a card that still has to be looked at for what was there before. -/
def isOld (cur value : Int) : Bool :=
  cardIsDirtyWrtGenIter value || isPrevYoungergenCardVal cur value

variable {cur value : Int}

theorem isOld_iff : isOld cur value = true ↔
    value = dirtyCard ∨ value = precleanedCard ∨ IsYoungergen value ∧ value ≠ cur := by
  unfold isOld cardIsDirtyWrtGenIter isPrevYoungergenCardVal IsYoungergen
  simp [or_assoc]

theorem isOld_cleanCard : isOld cur cleanCard = false := by
  rw [Bool.eq_false_iff, Ne, isOld_iff]
  unfold IsYoungergen youngergenCard lastReserved cleanCard dirtyCard precleanedCard
  omega

theorem isOld_cur (hcur : IsYoungergen cur) : isOld cur cur = false := by
  rw [Bool.eq_false_iff, Ne, isOld_iff]
  unfold IsYoungergen youngergenCard lastReserved at hcur
  unfold dirtyCard precleanedCard
  omega

theorem isOld_curAndPrev : isOld cur curYoungergenAndPrevNoncleanCard = false := by
  rw [Bool.eq_false_iff, Ne, isOld_iff]
  unfold IsYoungergen curYoungergenAndPrevNoncleanCard lastReserved dirtyCard precleanedCard
  omega

theorem cur_ne_cleanCard (hcur : IsYoungergen cur) : cur ≠ cleanCard := by
  unfold IsYoungergen youngergenCard lastReserved at hcur
  unfold cleanCard
  omega

theorem cur_ne_curAndPrev (hcur : IsYoungergen cur) : cur ≠ curYoungergenAndPrevNoncleanCard :=
  Int.ne_of_lt hcur.2

theorem curAndPrev_ne_cleanCard : curYoungergenAndPrevNoncleanCard ≠ cleanCard := by decide

/-! ## The threads -/

/-- Where the thread that the card is assigned to is. -/
inductive Scanner where
  /-- About to look whether the card is to be scanned. -/
  | looking
  | passedOver
  /-- At the head of the loop of `clear_card`. -/
  | loading
  | swapping (entryVal : Int)
  | storing
  | returned (result : Bool)
  /-- An assertion has failed. -/
  | failed
  deriving DecidableEq, Repr

/-- The card has been scanned. -/
def Scanner.isReturned : Scanner → Bool
  | .returned _ => true
  | _ => false

/-- Where a thread that writes references is. -/
inductive Writer where
  | idle
  /-- At the head of the loop of `write_ref_field_gc_par`. -/
  | loading
  | storing
  | swapping (entryVal : Int)
  | returned
  | failed
  deriving DecidableEq, Repr

/-- The next access of the scanning thread: the new value of the card, and where it is then. -/
def Scanner.step (cur card : Int) : Scanner → Option (Int × Scanner)
  | .looking => some (card, if card = cleanCard then .passedOver else .loading)
  | .loading => some (card,
      if card = cleanCard then .failed
      else if isOld cur card then .swapping card
      else if card = curYoungergenAndPrevNoncleanCard then .storing
      else if card = cur then .returned false
      else .failed)
  | .swapping entryVal => some
      (if card = entryVal then (cleanCard, .returned true)
      else (card, if card = curYoungergenAndPrevNoncleanCard then .loading else .failed))
  | .storing => some (cur, .returned true)
  | .passedOver | .returned _ | .failed => none

/-- The next access of a writing thread, which may write again. -/
def Writer.step (cur card : Int) : Writer → Option (Int × Writer)
  | .idle | .returned => some (card, .loading)
  | .loading => some (card,
      if card = cleanCard then .storing
      else if isOld cur card then .swapping card
      else if card = curYoungergenAndPrevNoncleanCard ∨ card = cur then .returned
      else .failed)
  | .storing => some (cur, .returned)
  | .swapping entryVal => some
      (if card = entryVal then (curYoungergenAndPrevNoncleanCard, .returned) else (card, .loading))
  | .failed => none

/-- A card, the scanning thread and the writing threads `W`, and whether one of them has completed
a write. -/
structure Cleaning (W : Type*) where
  card : Int
  scanner : Scanner
  writers : W → Writer
  completed : Bool

namespace Cleaning

variable {W : Type*} [DecidableEq W]

/-- One step of the scanning thread or of a writing thread. -/
def step (cur : Int) (s : Cleaning W) : Option W → Option (Cleaning W)
  | none => (s.scanner.step cur s.card).map fun (card, scanner) =>
    { s with card := card, scanner := scanner }
  | some w => ((s.writers w).step cur s.card).map fun (card, writer) =>
    { s with
      card := card
      writers := Function.update s.writers w writer
      completed := s.completed || decide (writer = .returned) }

/-- Any interleaving of the threads, from a card with the value `init`. -/
def system (cur init : Int) (scanner : Scanner) : TransitionSystem (Cleaning W) where
  init s := s = ⟨init, scanner, fun _ => .idle, false⟩
  step s s' := ∃ thread, s.step cur thread = some s'

/-- No thread is in the middle of its code. -/
structure Finished (s : Cleaning W) : Prop where
  scanner : s.scanner = .looking ∨ s.scanner = .passedOver ∨ s.scanner.isReturned = true
  writers : ∀ w, s.writers w = .idle ∨ s.writers w = .returned

/-- What cleaning a card with the value `init` promises. -/
structure Sound (cur init : Int) (s : Cleaning W) : Prop where
  scanner_ne_failed : s.scanner ≠ .failed
  writer_ne_failed : ∀ w, s.writers w ≠ .failed
  returned : ∀ result, s.scanner = .returned result → (result = true ↔ init ≠ cleanCard)
  written : s.Finished → s.completed = true →
    s.card = if init = cleanCard ∨ s.scanner.isReturned = true then cur
      else curYoungergenAndPrevNoncleanCard
  unwritten : s.Finished → s.completed = false →
    s.card = if s.scanner.isReturned then cleanCard else init

end Cleaning

/-! ## The invariant -/

/-- What the card and the scanning thread can be at once. -/
inductive Stage (cur init : Int) : Int → Scanner → Bool → Prop where
  /-- Nothing was to be scanned, and nothing was written. -/
  | clean {scanner : Scanner} (hinit : init = cleanCard)
      (hscanner : scanner = .looking ∨ scanner = .passedOver) :
      Stage cur init cleanCard scanner false
  /-- Nothing was to be scanned when the card was written. -/
  | young {scanner : Scanner} (hinit : init = cleanCard)
      (hscanner : scanner = .looking ∨ scanner = .passedOver ∨ scanner = .loading ∨
        scanner = .returned false) : Stage cur init cur scanner true
  | old {scanner : Scanner} (hinit : isOld cur init = true)
      (hscanner : scanner = .looking ∨ scanner = .loading ∨ scanner = .swapping init) :
      Stage cur init init scanner false
  /-- The card was written before it was scanned. -/
  | both {scanner : Scanner} (hinit : isOld cur init = true)
      (hscanner : scanner = .looking ∨ scanner = .loading ∨ scanner = .swapping init ∨
        scanner = .storing) : Stage cur init curYoungergenAndPrevNoncleanCard scanner true
  | cleaned (hinit : isOld cur init = true) : Stage cur init cleanCard (.returned true) false
  /-- The card was written before or after it was scanned. -/
  | written (hinit : isOld cur init = true) : Stage cur init cur (.returned true) true

/-- What a writing thread has seen. -/
def Writer.Holds (init : Int) (scanner : Scanner) : Writer → Prop
  | .storing => init = cleanCard ∨ scanner = .returned true
  | .swapping entryVal => entryVal = init ∧ init ≠ cleanCard
  | .failed => False
  | _ => True

variable {W : Type*} [DecidableEq W] {cur init card card' : Int} {scanner scanner' : Scanner}
  {writer writer' : Writer} {completed : Bool}

theorem ne_cleanCard_of_isOld {value : Int} (hold : isOld cur value = true) :
    value ≠ cleanCard := by
  rintro rfl
  rw [isOld_cleanCard] at hold
  cases hold

/-- The scanning thread takes a step. -/
theorem Stage.scan (h : Stage cur init card scanner completed) (hcur : IsYoungergen cur)
    (hstep : scanner.step cur card = some (card', scanner')) :
    Stage cur init card' scanner' completed := by
  cases h with
  | clean hinit hscanner =>
    rcases hscanner with rfl | rfl
    · obtain ⟨rfl, rfl⟩ := Prod.mk.inj (Option.some.inj hstep)
      exact .clean hinit (.inr (if_pos rfl))
    · cases hstep
  | young hinit hscanner =>
    rcases hscanner with rfl | rfl | rfl | rfl
    · obtain ⟨rfl, rfl⟩ := Prod.mk.inj (Option.some.inj hstep)
      exact .young hinit (.inr (.inr (.inl (if_neg (cur_ne_cleanCard hcur)))))
    · cases hstep
    · obtain ⟨rfl, rfl⟩ := Prod.mk.inj (Option.some.inj hstep)
      rw [if_neg (cur_ne_cleanCard hcur), if_neg (by simp [isOld_cur hcur]),
        if_neg (cur_ne_curAndPrev hcur), if_pos rfl]
      exact .young hinit (.inr (.inr (.inr rfl)))
    · cases hstep
  | old hinit hscanner =>
    have hne := ne_cleanCard_of_isOld hinit
    rcases hscanner with rfl | rfl | rfl
    · obtain ⟨rfl, rfl⟩ := Prod.mk.inj (Option.some.inj hstep)
      exact .old hinit (.inr (.inl (if_neg hne)))
    · obtain ⟨rfl, rfl⟩ := Prod.mk.inj (Option.some.inj hstep)
      rw [if_neg hne, if_pos hinit]
      exact .old hinit (.inr (.inr rfl))
    · have hswapped := Option.some.inj hstep
      rw [if_pos rfl] at hswapped
      obtain ⟨rfl, rfl⟩ := Prod.mk.inj hswapped
      exact .cleaned hinit
  | both hinit hscanner =>
    have hne : curYoungergenAndPrevNoncleanCard ≠ init := by
      rintro rfl
      rw [isOld_curAndPrev] at hinit
      cases hinit
    rcases hscanner with rfl | rfl | rfl | rfl
    · obtain ⟨rfl, rfl⟩ := Prod.mk.inj (Option.some.inj hstep)
      exact .both hinit (.inr (.inl (if_neg curAndPrev_ne_cleanCard)))
    · obtain ⟨rfl, rfl⟩ := Prod.mk.inj (Option.some.inj hstep)
      rw [if_neg curAndPrev_ne_cleanCard, if_neg (by simp [isOld_curAndPrev]), if_pos rfl]
      exact .both hinit (.inr (.inr (.inr rfl)))
    · have hfailed := Option.some.inj hstep
      rw [if_neg hne, if_pos rfl] at hfailed
      obtain ⟨rfl, rfl⟩ := Prod.mk.inj hfailed
      exact .both hinit (.inr (.inl rfl))
    · obtain ⟨rfl, rfl⟩ := Prod.mk.inj (Option.some.inj hstep)
      exact .written hinit
  | cleaned => cases hstep
  | written => cases hstep

/-- What a writing thread has seen is still so after a step of the scanning thread. -/
theorem Writer.Holds.scan (h : writer.Holds init scanner)
    (hstep : scanner.step cur card = some (card', scanner')) : writer.Holds init scanner' := by
  cases writer with
  | storing =>
    refine h.imp_right fun hreturned => ?_
    rw [hreturned] at hstep
    cases hstep
  | swapping => exact h
  | failed => exact h
  | idle => trivial
  | loading => trivial
  | returned => trivial

/-- A load of a writing thread. -/
theorem Stage.load (h : Stage cur init card scanner completed) (hcur : IsYoungergen cur)
    (hstep : Writer.loading.step cur card = some (card', writer')) :
    Stage cur init card' scanner (completed || decide (writer' = .returned)) ∧
      writer'.Holds init scanner := by
  obtain ⟨rfl, rfl⟩ := Prod.mk.inj (Option.some.inj hstep)
  cases h with
  | clean hinit hscanner =>
    rw [if_pos rfl]
    exact ⟨.clean hinit hscanner, .inl hinit⟩
  | young hinit hscanner =>
    rw [if_neg (cur_ne_cleanCard hcur), if_neg (by simp [isOld_cur hcur]), if_pos (.inr rfl)]
    exact ⟨.young hinit hscanner, trivial⟩
  | old hinit hscanner =>
    have hne := ne_cleanCard_of_isOld hinit
    rw [if_neg hne, if_pos hinit]
    exact ⟨.old hinit hscanner, rfl, hne⟩
  | both hinit hscanner =>
    rw [if_neg curAndPrev_ne_cleanCard, if_neg (by simp [isOld_curAndPrev]), if_pos (.inl rfl)]
    exact ⟨.both hinit hscanner, trivial⟩
  | cleaned hinit =>
    rw [if_pos rfl]
    exact ⟨.cleaned hinit, .inr rfl⟩
  | written hinit =>
    rw [if_neg (cur_ne_cleanCard hcur), if_neg (by simp [isOld_cur hcur]), if_pos (.inr rfl)]
    exact ⟨.written hinit, trivial⟩

/-- The plain store of a writing thread overwrites nothing but a clean or a current card. -/
theorem Stage.store (h : Stage cur init card scanner completed)
    (hwriter : Writer.storing.Holds init scanner) : Stage cur init cur scanner true := by
  cases h with
  | clean hinit hscanner =>
    exact .young hinit (hscanner.imp_right .inl)
  | young hinit hscanner => exact .young hinit hscanner
  | cleaned hinit => exact .written hinit
  | written hinit => exact .written hinit
  | old hinit hscanner =>
    refine absurd hwriter (not_or.mpr ⟨ne_cleanCard_of_isOld hinit, ?_⟩)
    rcases hscanner with rfl | rfl | rfl <;> exact nofun
  | both hinit hscanner =>
    refine absurd hwriter (not_or.mpr ⟨ne_cleanCard_of_isOld hinit, ?_⟩)
    rcases hscanner with rfl | rfl | rfl | rfl <;> exact nofun

/-- The compare-and-swap of a writing thread succeeds only before the card is scanned. -/
theorem Stage.swap (h : Stage cur init card scanner completed) (hcur : IsYoungergen cur)
    (hinit : init ≠ cleanCard) :
    if card = init then Stage cur init curYoungergenAndPrevNoncleanCard scanner true
    else Stage cur init card scanner completed := by
  have hne : card ≠ init → if card = init then
      Stage cur init curYoungergenAndPrevNoncleanCard scanner true
      else Stage cur init card scanner completed := fun hne => by rwa [if_neg hne]
  cases h with
  | clean heq => exact absurd heq hinit
  | young heq => exact absurd heq hinit
  | old hold hscanner =>
    rw [if_pos rfl]
    exact .both hold (hscanner.imp_right (Or.imp_right .inl))
  | both hold =>
    refine hne ?_
    rintro rfl
    rw [isOld_curAndPrev] at hold
    cases hold
  | cleaned => exact hne hinit.symm
  | written hold =>
    refine hne ?_
    rintro rfl
    rw [isOld_cur hcur] at hold
    cases hold

/-- A writing thread takes a step. -/
theorem Stage.write (h : Stage cur init card scanner completed) (hcur : IsYoungergen cur)
    (hwriter : writer.Holds init scanner)
    (hstep : writer.step cur card = some (card', writer')) :
    Stage cur init card' scanner (completed || decide (writer' = .returned)) ∧
      writer'.Holds init scanner := by
  cases writer with
  | idle =>
    obtain ⟨rfl, rfl⟩ := Prod.mk.inj (Option.some.inj hstep)
    simpa [Writer.Holds] using h
  | returned =>
    obtain ⟨rfl, rfl⟩ := Prod.mk.inj (Option.some.inj hstep)
    simpa [Writer.Holds] using h
  | loading => exact h.load hcur hstep
  | storing =>
    obtain ⟨rfl, rfl⟩ := Prod.mk.inj (Option.some.inj hstep)
    simpa [Writer.Holds] using h.store hwriter
  | swapping entryVal =>
    obtain ⟨rfl, hinit⟩ := hwriter
    have hswap := h.swap hcur hinit
    have hswapped := Option.some.inj hstep
    split at hswapped
    next heq =>
      obtain ⟨rfl, rfl⟩ := Prod.mk.inj hswapped
      rw [if_pos heq] at hswap
      simpa [Writer.Holds] using hswap
    next hne =>
      obtain ⟨rfl, rfl⟩ := Prod.mk.inj hswapped
      rw [if_neg hne] at hswap
      simpa [Writer.Holds] using hswap
  | failed => cases hstep

/-- The invariant of all interleavings. -/
structure Cleaning.Inv (cur init : Int) (s : Cleaning W) : Prop where
  stage : Stage cur init s.card s.scanner s.completed
  writers : ∀ w, (s.writers w).Holds init s.scanner

theorem Cleaning.Inv.step {s s' : Cleaning W} (h : s.Inv cur init) (hcur : IsYoungergen cur)
    {thread : Option W} (hstep : s.step cur thread = some s') : s'.Inv cur init := by
  cases thread with
  | none =>
    obtain ⟨⟨card, scanner⟩, hscan, rfl⟩ := Option.map_eq_some_iff.mp hstep
    exact ⟨h.stage.scan hcur hscan, fun w => (h.writers w).scan hscan⟩
  | some w =>
    obtain ⟨⟨card, writer⟩, hwrite, rfl⟩ := Option.map_eq_some_iff.mp hstep
    obtain ⟨hstage, hwriter⟩ := h.stage.write hcur (h.writers w) hwrite
    refine ⟨hstage, fun v => ?_⟩
    change (Function.update s.writers w writer v).Holds init s.scanner
    by_cases hv : v = w
    · rw [hv, Function.update_self]
      exact hwriter
    · rw [Function.update_of_ne hv]
      exact h.writers v

/-- Between the steps of a scanning thread the card is what was promised. -/
theorem Stage.sound (h : Stage cur init card scanner completed) :
    scanner ≠ .failed ∧
      (∀ result, scanner = .returned result → (result = true ↔ init ≠ cleanCard)) ∧
      (scanner = .looking ∨ scanner = .passedOver ∨ scanner.isReturned = true →
        card = if completed then
            if init = cleanCard ∨ scanner.isReturned = true then cur
            else curYoungergenAndPrevNoncleanCard
          else if scanner.isReturned then cleanCard else init) := by
  cases h with
  | clean hinit hscanner => rcases hscanner with rfl | rfl <;> simp [hinit, Scanner.isReturned]
  | young hinit hscanner =>
    rcases hscanner with rfl | rfl | rfl | rfl <;> simp [hinit, Scanner.isReturned]
  | old hinit hscanner =>
    rcases hscanner with rfl | rfl | rfl <;> simp [Scanner.isReturned]
  | both hinit hscanner =>
    have hne := ne_cleanCard_of_isOld hinit
    rcases hscanner with rfl | rfl | rfl | rfl <;> simp [hne, Scanner.isReturned]
  | cleaned hinit => simp [ne_cleanCard_of_isOld hinit, Scanner.isReturned]
  | written hinit => simp [ne_cleanCard_of_isOld hinit, Scanner.isReturned]

omit [DecidableEq W] in
theorem Cleaning.Inv.sound {s : Cleaning W} (h : s.Inv cur init) : s.Sound cur init := by
  obtain ⟨hscanner, hreturned, hcard⟩ := h.stage.sound
  refine ⟨hscanner, fun w hfailed => ?_, hreturned, fun hfinished hcompleted => ?_,
    fun hfinished hcompleted => ?_⟩
  · have hw := h.writers w
    rw [hfailed] at hw
    exact hw
  · rw [hcard hfinished.scanner, if_pos hcompleted]
  · rw [hcard hfinished.scanner, hcompleted, if_neg Bool.false_ne_true]

/-- Whatever the interleaving, no write into a card is lost, and the card is scanned if it was not
clean. -/
theorem Cleaning.reachable_keeps (hcur : IsYoungergen cur)
    (hinit : init = cleanCard ∨ isOld cur init = true) {s : Cleaning W}
    (h : (Cleaning.system cur init .looking).Reachable s) : s.Sound cur init := by
  have hinv : s.Inv cur init := by
    refine h.invariant ?_ fun s s' hs ⟨thread, hstep⟩ => hs.step hcur hstep
    rintro s rfl
    refine ⟨?_, fun w => trivial⟩
    rcases hinit with rfl | hold
    · exact .clean rfl (.inl rfl)
    · exact .old hold (.inl rfl)
  exact hinv.sound

/-- The state that a schedule of the threads leads to. -/
def Cleaning.run (cur : Int) (s : Cleaning W) (threads : List (Option W)) : Option (Cleaning W) :=
  threads.foldlM (Cleaning.step cur) s

theorem Cleaning.reachable_of_run {s s' : Cleaning W}
    (hs : (Cleaning.system cur init scanner).Reachable s) {threads : List (Option W)}
    (hrun : s.run cur threads = some s') : (Cleaning.system cur init scanner).Reachable s' := by
  induction threads generalizing s with
  | nil =>
    obtain rfl := Option.some.inj hrun
    exact hs
  | cons thread threads ih =>
    unfold Cleaning.run at hrun
    rw [List.foldlM_cons, Option.bind_eq_bind, Option.bind_eq_some_iff] at hrun
    obtain ⟨s₁, hstep, hrest⟩ := hrun
    exact ih (hs.step ⟨thread, hstep⟩) hrest

/-- The card is written while it is being scanned. -/
theorem Cleaning.reachable_keeps_race : ∃ s : Cleaning Unit,
    (Cleaning.system youngergenP1Card dirtyCard .looking).Reachable s ∧
      s.scanner = .returned true ∧ s.writers () = .returned ∧ s.card = youngergenP1Card ∧
      s.Sound youngergenP1Card dirtyCard := by
  have hrun : ((⟨dirtyCard, .looking, fun _ => .idle, false⟩ : Cleaning Unit).run youngergenP1Card
      [none, none, some (), some (), some (), none, none, none]).map
        (fun s => (s.scanner, s.writers (), s.card)) =
      some (.returned true, .returned, youngergenP1Card) := by
    decide
  obtain ⟨s, hrun, hs⟩ := Option.map_eq_some_iff.mp hrun
  obtain ⟨hscanner, hrest⟩ := Prod.mk.inj hs
  obtain ⟨hwriter, hcard⟩ := Prod.mk.inj hrest
  have hreach := Cleaning.reachable_of_run (.of_init rfl) hrun
  exact ⟨s, hreach, hscanner, hwriter, hcard,
    Cleaning.reachable_keeps (by decide) (.inr rfl) hreach⟩

/-- A dirty card that is written and not scanned does not get the current value, and a clean card
is nothing to execute `clear_card` on. -/
theorem Cleaning.not_sound :
    (∃ s : Cleaning Unit, (Cleaning.system youngergenP1Card dirtyCard .looking).Reachable s ∧
      s.Finished ∧ s.completed = true ∧ s.card ≠ youngergenP1Card) ∧
    ∃ s : Cleaning Unit, (Cleaning.system youngergenP1Card cleanCard .loading).Reachable s ∧
      s.scanner = .failed := by
  have hwrite : ((⟨dirtyCard, .looking, fun _ => .idle, false⟩ : Cleaning Unit).run youngergenP1Card
      [some (), some (), some ()]).map (fun s => (s.scanner, s.writers (), s.completed, s.card)) =
      some (.looking, .returned, true, curYoungergenAndPrevNoncleanCard) := by
    decide
  have hclear : ((⟨cleanCard, .loading, fun _ => .idle, false⟩ : Cleaning Unit).run
      youngergenP1Card [none]).map (fun s => s.scanner) = some .failed := by
    decide
  constructor
  · obtain ⟨s, hrun, hs⟩ := Option.map_eq_some_iff.mp hwrite
    obtain ⟨hscanner, hrest⟩ := Prod.mk.inj hs
    obtain ⟨hwriter, hrest⟩ := Prod.mk.inj hrest
    obtain ⟨hcompleted, hcard⟩ := Prod.mk.inj hrest
    refine ⟨s, Cleaning.reachable_of_run (.of_init rfl) hrun,
      ⟨.inl hscanner, fun _ => .inr hwriter⟩, hcompleted, ?_⟩
    rw [hcard]
    decide
  · obtain ⟨s, hrun, hscanner⟩ := Option.map_eq_some_iff.mp hclear
    exact ⟨s, Cleaning.reachable_of_run (.of_init rfl) hrun, hscanner⟩

end HotSpot.CardTable

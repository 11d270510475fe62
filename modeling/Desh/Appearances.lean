/-
This file says when the here documents of a line are matched to their operators
in order of appearance. The text of a line gives its operators in one order
(`appearances`); the reductions queue them in another (`events`), each time in
front of the queue, and the queue is read from its front.
-/

import Desh.Bodies
import Desh.Parsing

namespace Desh

open Desh.Tree

/-! ### Events and what is read -/

/-- An account that tells of a derivation what its items tell: the newlines that end lines, and
for a redirection what its token says. -/
structure Account.Tells {Mark : Type} (account : Account) (item : Item → Option Mark)
    (event : Event → Option Mark) : Prop where
  newline : item .reads = event .newline
  endfile : item (.shift .ENDFILE) = event .endfile
  plain : ∀ token, (∀ tree, token ≠ .REDIR tree) → token ≠ .ENDFILE → item (.shift token) = none
  atWord : ∀ operator fd form,
    [Item.shift (.REDIR (mkredircmd operator.command fd))].filterMap item =
      (account.atWord operator form).filterMap event
  atSimple : ∀ markings, (account.atSimple markings).filterMap event = []
  atRedir : ∀ redir cmd marking, (account.atRedir redir cmd marking).filterMap event = []

section Telling

variable {Mark : Type} {account : Account} {item : Item → Option Mark}
  {event : Event → Option Mark}

/-- Items and events with the same marks. -/
def Agreeing (item : Item → Option Mark) (event : Event → Option Mark) (items : List Item)
    (events : List Event) : Prop :=
  items.filterMap item = events.filterMap event

namespace Agreeing

variable {items others : List Item} {events events' : List Event}

theorem append (first : Agreeing item event items events)
    (second : Agreeing item event others events') :
    Agreeing item event (items ++ others) (events ++ events') := by
  unfold Agreeing
  rw [List.filterMap_append, List.filterMap_append, first, second]

theorem before (silent : items.filterMap item = []) (second : Agreeing item event others events) :
    Agreeing item event (items ++ others) events := by
  unfold Agreeing
  rw [List.filterMap_append, silent, List.nil_append, second]

theorem after (first : Agreeing item event items events) (silent : others.filterMap item = []) :
    Agreeing item event (items ++ others) events := by
  unfold Agreeing
  rw [List.filterMap_append, silent, List.append_nil, first]

theorem cons {shifted : Item} (silent : item shifted = none)
    (second : Agreeing item event items events) :
    Agreeing item event (shifted :: items) events := by
  unfold Agreeing
  rw [List.filterMap_cons_none silent, second]

theorem silently (second : Agreeing item event items events)
    (silent : events'.filterMap event = []) : Agreeing item event items (events ++ events') := by
  unfold Agreeing
  rw [List.filterMap_append, silent, List.append_nil, second]

end Agreeing

/-- What an account tells of a derivation is what its items tell. -/
theorem agreeing_collect (tells : account.Tells item event) {symbol : Nonterminal}
    (derivation : Derivation symbol) :
    Agreeing item event derivation.items (derivation.collect account) := by
  have char : ∀ c, item (.shift (.char c)) = none := fun c => tells.plain _ nofun nofun
  have nl : item (.shift .NL) = none := tells.plain _ nofun nofun
  have newlines : ∀ count, (newlines count).filterMap item = [] := fun count =>
    List.filterMap_replicate_of_none nl
  have caret : ∀ present, (caret present).filterMap item = [] := by
    rintro (_ | _)
    · rfl
    · exact List.filterMap_cons_none (char _)
  have spaced : ∀ {shifted : Item} (count : Nat), item shifted = none →
      (shifted :: Desh.newlines count).filterMap item = [] := fun count silent =>
    (List.filterMap_cons_none silent).trans (newlines count)
  have careted : ∀ {shifted : Item} (present : Bool), item shifted = none →
      (shifted :: Desh.caret present).filterMap item = [] := fun present silent =>
    (List.filterMap_cons_none silent).trans (caret present)
  have ended : ∀ {items events}, Agreeing item event items events →
      Agreeing item event (items ++ [.shift .NL, .reads]) (events ++ [.newline]) := by
    refine fun agreeing => agreeing.append ?_
    refine Agreeing.cons nl ?_
    unfold Agreeing
    rw [List.filterMap_cons, List.filterMap_cons, tells.newline, List.filterMap_nil,
      List.filterMap_nil]
  induction derivation with
  | esNl _ ih | cmdsanNl _ ih => exact ended ih
  | esEndfile _ ih =>
    refine ih.append ?_
    unfold Agreeing
    rw [List.filterMap_cons, List.filterMap_cons, tells.endfile, List.filterMap_nil,
      List.filterMap_nil]
  | cmdSimple simple ih => exact ih.silently (tells.atSimple _)
  | cmdRedir redir cmd ih ih' => exact (ih.append ih').silently (tells.atRedir _ _ _)
  | redirWord operator fd word ih =>
    have first : Agreeing item event [.shift (.REDIR (mkredircmd operator.command fd))]
      (account.atWord operator word.form) := tells.atWord operator fd word.form
    exact first.append ih
  | lineCmd _ ih | bodyCmd _ ih | cmdsanCmdsa _ ih | cmdFn _ ih | simpleFirst _ ih
  | bindingsBinding _ ih | bindingFn _ ih | firstComword _ ih | swordComword _ ih
  | wordSword _ ih | comwordParam _ ih =>
    exact ih
  | lineCmdsa _ _ ih ih' | bodyCmdsan _ _ ih ih' | cmdAssign _ _ ih ih' | simpleWord _ _ ih ih'
  | simpleRedir _ _ ih ih' | bindingAssign _ _ ih ih' | paramsParam _ _ ih ih'
  | wordsWord _ _ ih ih' | nlwordsWord _ _ ih ih' =>
    exact ih.append ih'
  | cmdsaSemicolon _ ih | cmdsaBackground _ ih =>
    exact ih.after (List.filterMap_cons_none (char _))
  | cmdBinder binder nl bindings nl' cmd ih ih' =>
    have binds : item (.shift binder.token) = none := by
      cases binder <;> exact tells.plain _ nofun nofun
    exact ((Agreeing.before (spaced nl binds) (ih.cons (char _))).after
      (spaced nl' (char _))).append ih'
  | cmdAndand _ nl _ ih ih' =>
    exact (ih.after (spaced nl (tells.plain .ANDAND nofun nofun))).append ih'
  | cmdOror _ nl _ ih ih' =>
    exact (ih.after (spaced nl (tells.plain .OROR nofun nofun))).append ih'
  | cmdPipe _ outfd infd nl _ ih ih' =>
    exact (ih.after (spaced nl (tells.plain (.PIPE (nPipe outfd infd)) nofun nofun))).append ih'
  | cmdNot optcaret _ ih =>
    exact Agreeing.before (careted optcaret (char _)) ih
  | cmdMatch _ _ ih ih' => exact (ih.cons (char _)).append ih'
  | cmdExtract _ _ ih ih' => exact (ih.cons (tells.plain .EXTRACT nofun nofun)).append ih'
  | cmdRelop rel _ _ ih ih' =>
    refine ih.append (ih'.cons ?_)
    cases rel <;> exact tells.plain _ nofun nofun
  | redirDup dup => exact List.filterMap_cons_none (tells.plain _ nofun nofun)
  | bindingsSemicolon _ _ ih ih' => exact ih.append (ih'.cons (char _))
  | bindingsNl _ _ ih ih' => exact ih.append (ih'.cons nl)
  | assignWords first second _ ih =>
    refine Agreeing.before ?_ ih
    rw [List.filterMap_append, caret, List.nil_append]
    exact careted second (char _)
  | fnBody _ _ _ ih ih' ih'' =>
    have first := (ih.cons (tells.plain .FN nofun nofun)).append ih'
    exact (first.append (ih''.cons (char _))).after (List.filterMap_cons_none (char _))
  | fnWord _ ih => exact ih.cons (tells.plain _ nofun nofun)
  | firstCaret _ nl _ ih ih' | wordCaret _ nl _ ih ih' =>
    exact (ih.after (spaced nl (char _))).append ih'
  | swordKeyword keyword =>
    refine List.filterMap_cons_none ?_
    cases keyword <;> exact tells.plain _ nofun nofun
  | comwordNlwords _ ih | comwordBody _ ih =>
    exact (ih.cons (char _)).after (List.filterMap_cons_none (char _))
  | comwordLambda _ _ ih ih' =>
    exact ((ih.cons (char _)).append (ih'.cons (char _))).after
      (List.filterMap_cons_none (char _))
  | comwordVar _ ih => exact ih.cons (char _)
  | comwordVarsub _ _ ih ih' =>
    exact ((ih.cons (char _)).append (ih'.cons (tells.plain .SUB nofun nofun))).after
      (List.filterMap_cons_none (char _))
  | comwordCall _ ih | comwordCount _ ih | comwordFlat _ ih =>
    exact ih.cons (tells.plain _ nofun nofun)
  | comwordPrim str =>
    change Agreeing item event [.shift .PRIM, .shift (.WORD str)] []
    exact Agreeing.cons (tells.plain _ nofun nofun) (Agreeing.cons (tells.plain _ nofun nofun) rfl)
  | comwordBackquote _ ih => exact ih.cons (char _)
  | comwordBackback _ _ ih ih' => exact (ih.cons (tells.plain .BACKBACK nofun nofun)).append ih'
  | paramWord _ _ | paramQword _ => exact List.filterMap_cons_none (tells.plain _ nofun nofun)
  | nlwordsNl _ ih => exact ih.after (List.filterMap_cons_none nl)
  | cmdEmpty | bindingEmpty | paramsNil | wordsNil | nlwordsNil => rfl

end Telling

/-! ### Order of appearance -/

/-- The account of the text: a here document stands where its operator does. -/
def appearing : Account where
  atWord operator form :=
    if operator = .heredoc then
      match form with
      | .literal eof => [.queued eof]
      | _ => [.refused]
    else []
  atSimple _ := []
  atRedir _ _ _ := []

/-- The here documents of a derivation and the ends of its lines, in the order of the text. -/
abbrev Derivation.appearances {symbol : Nonterminal} (derivation : Derivation symbol) :
    List Event :=
  derivation.collect appearing

/-- What a token says of the here documents: an operator, or the end of a line. -/
def Item.mark : Item → Option Bool
  | .shift (.REDIR (nList (nWord command) _)) =>
      if command = Operator.heredoc.command then some true else none
  | .reads => some false
  | _ => none

/-- What an event says of the here documents. -/
def Event.mark : Event → Option Bool
  | queued _ | refused => some true
  | newline => some false
  | braced | missing | endfile => none

theorem appearing_tells : appearing.Tells Item.mark Event.mark where
  newline := rfl
  endfile := rfl
  plain token other _ := by
    cases token <;> first | rfl | exact absurd rfl (other _)
  atWord operator fd form := by
    cases operator <;> cases form <;> rfl
  atSimple _ := rfl
  atRedir _ _ _ := rfl

/-- The operators and the ends of lines appear as they are read. -/
theorem mark_appearances {symbol : Nonterminal} (derivation : Derivation symbol) :
    derivation.items.filterMap Item.mark = derivation.appearances.filterMap Event.mark :=
  agreeing_collect appearing_tells derivation

/-! ### Ends of lines -/

/-- Is it the reading at the end of a line? -/
def Item.ends : Item → Option Unit
  | .reads => some ()
  | .shift _ => none

def Event.ends : Event → Option Unit
  | newline => some ()
  | _ => none

theorem Marking.ends_events (marking : Marking) : marking.events.filterMap Event.ends = [] := by
  cases marking <;> rfl

theorem Marking.ends_innerEvents (markings : List Marking) :
    (Marking.innerEvents markings).filterMap Event.ends = [] := by
  induction markings with
  | nil => rfl
  | cons marking markings ih => cases marking <;> first | exact ih | rfl

theorem reduced_tells : reduced.Tells Item.ends Event.ends where
  newline := rfl
  endfile := rfl
  plain _ _ _ := rfl
  atWord _ _ _ := rfl
  atSimple markings := by
    cases markings with
    | nil => rfl
    | cons marking markings =>
      refine (List.filterMap_append ..).trans ?_
      rw [marking.ends_events, Marking.ends_innerEvents]
      rfl
  atRedir redir cmd marking := by
    change (if redir = .thunk ∧ cmd = .node then [Event.braced] else marking.events).filterMap
      Event.ends = []
    split
    · rfl
    · exact marking.ends_events

theorem appearing_tells_ends : appearing.Tells Item.ends Event.ends where
  newline := rfl
  endfile := rfl
  plain _ _ _ := rfl
  atWord operator _ form := by
    cases operator <;> cases form <;> rfl
  atSimple _ := rfl
  atRedir _ _ _ := rfl

/-- The reductions and the text have the same ends of lines. -/
theorem ends_events {symbol : Nonterminal} (derivation : Derivation symbol) :
    derivation.events.filterMap Event.ends = derivation.appearances.filterMap Event.ends :=
  (agreeing_collect reduced_tells derivation).symm.trans
    (agreeing_collect appearing_tells_ends derivation)

/-- The here documents of each line. -/
def documentsOf : List Event → List (List Tree)
  | [] => [[]]
  | .newline :: events => [] :: documentsOf events
  | .queued eof :: events => (documentsOf events).modifyHead (eof :: ·)
  | _ :: events => documentsOf events

theorem length_documentsOf (events : List Event) :
    (documentsOf events).length = (events.filterMap Event.ends).length + 1 := by
  induction events with
  | nil => rfl
  | cons event events ih =>
    cases event <;> simp [documentsOf, ih, Event.ends, List.filterMap_cons]

/-- The queue at the end of each line, when it starts with `hereq`. -/
def queues (hereq : List Tree) : List Event → List (List Tree)
  | [] => [hereq]
  | .newline :: events => hereq :: queues [] events
  | .queued eof :: events => queues (eof :: hereq) events
  | _ :: events => queues hereq events

/-- Each line's here documents are queued in the reverse of the order in which they come. -/
theorem queues_eq (hereq : List Tree) (events : List Event) :
    queues hereq events =
      ((documentsOf events).map List.reverse).modifyHead (· ++ hereq) := by
  induction events generalizing hereq with
  | nil => rfl
  | cons event events ih =>
    cases event with
    | newline =>
      rw [queues, documentsOf, ih, List.map_cons, List.modifyHead_cons]
      congr 1
      generalize (documentsOf events).map List.reverse = lines
      cases lines <;> simp
    | queued eof =>
      rw [queues, documentsOf, ih]
      generalize documentsOf events = lines
      cases lines <;> simp
    | _ => exact ih hereq

/-! ### Reading line by line -/

section Lines

variable (spelling : Text → Text)

/-- Read the here documents of each line from the text behind it. -/
def readLines : List (List Tree) → List Text → Except HereError (List (Tree × Tree))
  | [], _ => .ok []
  | eofs :: lines, texts => do
      let (contents, _) ← readDocuments spelling eofs (texts.headD [])
      let others ← readLines lines texts.tail
      .ok (contents ++ others)

variable {spelling}

theorem readLines_cons {eofs : List Tree} {lines : List (List Tree)} {texts : List Text}
    {contents : List (Tree × Tree)} :
    readLines spelling (eofs :: lines) texts = .ok contents ↔
      ∃ first rest others, readDocuments spelling eofs (texts.headD []) = .ok (first, rest) ∧
        readLines spelling lines texts.tail = .ok others ∧ contents = first ++ others := by
  rw [readLines]
  constructor
  · intro read
    cases head : readDocuments spelling eofs (texts.headD []) with
    | error error =>
      rw [head] at read
      cases read
    | ok result =>
      obtain ⟨first, rest⟩ := result
      cases next : readLines spelling lines texts.tail with
      | error error =>
        rw [head, next] at read
        cases read
      | ok others =>
        rw [head, next] at read
        cases read
        exact ⟨first, rest, others, rfl, rfl, rfl⟩
  · rintro ⟨first, rest, others, head, next, rfl⟩
    rw [head, next]
    rfl

theorem readLines_keys {lines : List (List Tree)} {texts : List Text}
    {contents : List (Tree × Tree)} (read : readLines spelling lines texts = .ok contents) :
    contents.map Prod.fst = lines.flatten := by
  induction lines generalizing texts contents with
  | nil =>
    cases read
    rfl
  | cons eofs lines ih =>
    obtain ⟨first, rest, others, head, next, rfl⟩ := readLines_cons.mp read
    rw [List.map_append, List.flatten_cons, readDocuments_keys head, ih next]

/-! ### Performing the events of a line -/

/-- An event that neither fails nor gives up by itself. -/
def Event.Mild : Event → Prop
  | queued _ | newline => True
  | braced | missing | refused | endfile => False

instance : DecidablePred Event.Mild
  | .queued _ | .newline => .isTrue trivial
  | .braced | .missing | .refused | .endfile => .isFalse id

/-- The parser behind a line whose documents were read. -/
def Parser.ended (parser : Parser) (contents : List (Tree × Tree)) (rest : Text) : Parser where
  documents :=
    { hereq := []
      texts := parser.documents.texts.tail
      rests := parser.documents.rests ++ [rest]
      contents := parser.documents.contents ++ contents }
  id := parser.id
  error := parser.error

theorem endLine_of_read {parser : Parser} {contents : List (Tree × Tree)} {rest : Text}
    (read : readDocuments spelling parser.documents.hereq (parser.documents.texts.headD []) =
      .ok (contents, rest)) :
    endLine spelling false parser = .returns () (parser.ended contents rest) := by
  unfold endLine
  rw [Parse.bind_apply]
  unfold readheredocs
  rw [if_neg Bool.false_ne_true]
  dsimp only
  rw [read]
  rfl

theorem endLine_returns {parser after : Parser}
    (returned : endLine spelling false parser = .returns () after) :
    ∃ contents rest, readDocuments spelling parser.documents.hereq
        (parser.documents.texts.headD []) = .ok (contents, rest) := by
  unfold endLine at returned
  rw [Parse.bind_apply] at returned
  unfold readheredocs at returned
  rw [if_neg Bool.false_ne_true] at returned
  dsimp only at returned
  cases read : readDocuments spelling parser.documents.hereq
    (parser.documents.texts.headD []) with
  | ok result => exact ⟨result.1, result.2, rfl⟩
  | error error =>
    rw [read] at returned
    cases error <;> cases returned

/-- Mild events and the end of the line read the queues of the lines. -/
theorem performs_of_readLines {events : List Event} (milds : ∀ event ∈ events, event.Mild)
    {parser : Parser} {contents : List (Tree × Tree)}
    (read : readLines spelling (queues parser.documents.hereq events) parser.documents.texts =
      .ok contents) :
    ∃ after, performs spelling (events ++ [.newline]) parser = .returns () after ∧
      after.documents.contents = parser.documents.contents ++ contents := by
  induction events generalizing parser contents with
  | nil =>
    obtain ⟨first, rest, others, head, next, rfl⟩ := readLines_cons.mp read
    cases next
    have kept : (parser.ended first rest).documents.contents =
        parser.documents.contents ++ (first ++ []) := by
      rw [List.append_nil]
      rfl
    refine ⟨_, ?_, kept⟩
    rw [List.nil_append, performs, Parse.bind_apply, Event.perform, endLine_of_read head]
    rfl
  | cons event events ih =>
    obtain ⟨isMild, mild⟩ := List.forall_mem_cons.mp milds
    rw [List.cons_append, performs, Parse.bind_apply]
    cases event with
    | queued eof => exact ih mild read
    | newline =>
      obtain ⟨first, rest, others, head, next, rfl⟩ := readLines_cons.mp read
      rw [Event.perform, endLine_of_read head]
      obtain ⟨after, performed, same⟩ := @ih mild (parser.ended first rest) others next
      exact ⟨after, performed, same.trans (List.append_assoc ..)⟩
    | braced | missing | refused | endfile => exact isMild.elim

/-- When events return, they are mild, and the queues of the lines were read. -/
theorem readLines_of_performs {events : List Event} (within : ∀ event ∈ events, event ≠ .endfile)
    {parser after : Parser}
    (performed : performs spelling (events ++ [.newline]) parser = .returns () after) :
    (∀ event ∈ events, event.Mild) ∧
      ∃ contents, readLines spelling (queues parser.documents.hereq events)
        parser.documents.texts = .ok contents := by
  induction events generalizing parser with
  | nil =>
    rw [List.nil_append, performs, Parse.bind_apply, Event.perform] at performed
    cases ended : endLine spelling false parser with
    | returns _ reached =>
      obtain ⟨contents, rest, read⟩ := endLine_returns ended
      exact ⟨by simp, contents ++ [], readLines_cons.mpr ⟨contents, rest, [], read, rfl, rfl⟩⟩
    | yyabort _ | assertion =>
      rw [ended] at performed
      cases performed
  | cons event events ih =>
    obtain ⟨other, inside⟩ := List.forall_mem_cons.mp within
    rw [List.cons_append, performs, Parse.bind_apply] at performed
    cases event with
    | queued eof =>
      obtain ⟨mild, read⟩ := ih inside performed
      exact ⟨List.forall_mem_cons.mpr ⟨trivial, mild⟩, read⟩
    | newline =>
      rw [Event.perform] at performed
      cases ended : endLine spelling false parser with
      | returns _ reached =>
        obtain ⟨first, rest, head⟩ := endLine_returns ended
        rw [endLine_of_read head] at performed
        obtain ⟨mild, others, next⟩ := ih inside performed
        exact ⟨List.forall_mem_cons.mpr ⟨trivial, mild⟩, first ++ others,
          readLines_cons.mpr ⟨first, rest, others, head, next, rfl⟩⟩
      | yyabort _ | assertion =>
        rw [ended] at performed
        cases performed
    | endfile => exact absurd rfl other
    | braced | missing | refused => cases performed

/-! ### Numbered bodies for lines -/

variable (spelling) in
/-- Bodies for the documents of each line, numbered through. -/
def bodiesFrom (number : Nat) : List (List Tree) → List (List Body)
  | [] => []
  | eofs :: lines =>
      (eofs.zipIdx number).map (fun (eof, number) => ⟨number, markerOf spelling eof⟩) ::
        bodiesFrom (number + eofs.length) lines

theorem lengths_bodiesFrom (number : Nat) (lines : List (List Tree)) :
    (bodiesFrom spelling number lines).map List.length = lines.map List.length := by
  induction lines generalizing number with
  | nil => rfl
  | cons eofs lines ih =>
    rw [bodiesFrom, List.map_cons, ih, List.length_map, List.length_zipIdx, List.map_cons]

theorem numbers_bodiesFrom (number : Nat) (lines : List (List Tree)) :
    (bodiesFrom spelling number lines).flatten.map Body.number =
      List.range' number lines.flatten.length := by
  induction lines generalizing number with
  | nil => rfl
  | cons eofs lines ih =>
    have own : ((eofs.zipIdx number).map fun (eof, number) =>
        (⟨number, markerOf spelling eof⟩ : Body)).map Body.number =
          List.range' number eofs.length := by
      rw [List.map_map]
      exact List.zipIdx_map_snd number eofs
    rw [bodiesFrom, List.flatten_cons, List.map_append, own, ih, List.flatten_cons,
      List.length_append, List.range'_append_1]

theorem markers_bodiesFrom (number : Nat) (lines : List (List Tree)) :
    (bodiesFrom spelling number lines).flatten.map Body.marker =
      lines.flatten.map (markerOf spelling) := by
  induction lines generalizing number with
  | nil => rfl
  | cons eofs lines ih =>
    have own : ((eofs.zipIdx number).map fun (eof, number) =>
        (⟨number, markerOf spelling eof⟩ : Body)).map Body.marker =
          eofs.map (markerOf spelling) := by
      conv_rhs => rw [← List.zipIdx_map_fst number eofs, List.map_map]
      rw [List.map_map]
      rfl
    rw [bodiesFrom, List.flatten_cons, List.map_append, own, ih, List.flatten_cons,
      List.map_append]

theorem forall₂_zipIdx (number bound : Nat) (eofs : List Tree)
    (below : ∀ eof ∈ eofs, (markerOf spelling eof).length < bound) (least : bound ≤ number) :
    List.Forall₂ (fun eof (body : Body) => body.marker = markerOf spelling eof ∧
        (markerOf spelling eof).length < body.number) eofs
      ((eofs.zipIdx number).map fun (eof, number) => ⟨number, markerOf spelling eof⟩) := by
  induction eofs generalizing number with
  | nil => exact .nil
  | cons eof eofs ih =>
    obtain ⟨first, below⟩ := List.forall_mem_cons.mp below
    exact .cons ⟨rfl, first.trans_le least⟩ (ih (number + 1) below (Nat.le_succ_of_le least))

/-- Each line's documents are read from bodies with their own markers. -/
theorem readLines_own {width : Nat} (number : Nat) {lines : List (List Tree)}
    (readable : ∀ eof ∈ lines.flatten, Readable spelling eof)
    (below : ∀ eof ∈ lines.flatten, (markerOf spelling eof).length < width)
    (least : width ≤ number) :
    ∃ contents, readLines spelling lines
      ((bodiesFrom spelling number lines).map (written · width)) = .ok contents := by
  induction lines generalizing number with
  | nil => exact ⟨[], rfl⟩
  | cons eofs lines ih =>
    rw [List.flatten_cons] at readable below
    obtain ⟨reads, readable⟩ := List.forall_mem_append.mp readable
    obtain ⟨short, below⟩ := List.forall_mem_append.mp below
    obtain ⟨first, head⟩ := @readDocuments_own spelling _ _ width reads
      (forall₂_zipIdx number width eofs short least)
    obtain ⟨others, next⟩ :=
      ih (number + eofs.length) readable below (least.trans (Nat.le_add_right ..))
    exact ⟨first ++ others, readLines_cons.mpr ⟨first, _, others, head, next, rfl⟩⟩

/-- The documents read from bodies, whatever the markers, begin with different bodies of their
lines, in their order. -/
theorem readLines_written {width : Nat} {queued : List (List Tree)} {bodies : List (List Body)}
    (same : queued.length = bodies.length)
    (short : ∀ eof ∈ queued.flatten, (markerOf spelling eof).length < width)
    (suit : ∀ eof ∈ queued.flatten, ∀ body ∈ bodies.flatten, body.Suits (markerOf spelling eof))
    {contents : List (Tree × Tree)}
    (read : readLines spelling queued (bodies.map (written · width)) = .ok contents) :
    ∃ starts : List (List Body), List.Forall₂ List.Sublist starts bodies ∧
      starts.map List.length = queued.map List.length ∧
      List.Forall₂ (fun pair body => Begins body.number pair.2) contents starts.flatten := by
  induction queued generalizing bodies contents with
  | nil =>
    cases bodies with
    | nil =>
      cases read
      exact ⟨[], .nil, rfl, .nil⟩
    | cons _ _ => cases same
  | cons eofs queued ih =>
    cases bodies with
    | nil => cases same
    | cons own bodies =>
      rw [List.flatten_cons] at short suit
      obtain ⟨first, rest, others, head, next, rfl⟩ := readLines_cons.mp read
      obtain ⟨starts, sublist, begins⟩ := readDocuments_written
        (fun eof member => short eof (List.mem_append_left _ member))
        (fun eof member body inside => suit eof (List.mem_append_left _ member) body
          (List.mem_append_left _ inside)) head
      obtain ⟨others, sublists, lengths, all⟩ := ih (Nat.succ.inj same)
        (fun eof member => short eof (List.mem_append_right _ member))
        (fun eof member body inside => suit eof (List.mem_append_right _ member) body
          (List.mem_append_right _ inside)) next
      have count : starts.length = eofs.length := by
        rw [← begins.length_eq, ← readDocuments_keys head, List.length_map]
      refine ⟨starts :: others, .cons sublist sublists, ?_, ?_⟩
      · rw [List.map_cons, List.map_cons, count, lengths]
      · exact List.rel_append begins all

end Lines

/-! ### Lists that are told apart -/

theorem exists_of_forall₂ {Value Label : Type} {holds : Value → Label → Prop} {values : List Value}
    {labels : List Label} (all : List.Forall₂ holds values labels) {value : Value}
    (member : value ∈ values) : ∃ label ∈ labels, holds value label := by
  induction all with
  | nil => cases member
  | cons first all ih =>
    rcases List.mem_cons.mp member with rfl | member
    · exact ⟨_, List.mem_cons_self, first⟩
    · obtain ⟨label, inside, held⟩ := ih member
      exact ⟨label, List.mem_cons_of_mem _ inside, held⟩

/-- Two lists over the same list without duplicates are one list when the first is part of the
second. -/
theorem eq_of_forall₂ {Value Label : Type} {holds : Value → Label → Prop}
    (functional : ∀ value label label', holds value label → holds value label' → label = label')
    {labels : List Label} (nodup : labels.Nodup) {values others : List Value}
    (first : List.Forall₂ holds values labels) (second : List.Forall₂ holds others labels)
    (part : ∀ value ∈ values, value ∈ others) : values = others := by
  induction first generalizing others with
  | nil =>
    cases second
    rfl
  | @cons value label values labels held first ih =>
    obtain ⟨fresh, nodup⟩ := List.nodup_cons.mp nodup
    cases second with
    | @cons other _ others _ held' second =>
      have absent : ∀ {rest : List Value}, List.Forall₂ holds rest labels → value ∉ rest := by
        intro rest all member
        obtain ⟨label', inside, again⟩ := exists_of_forall₂ all member
        exact fresh (functional value label label' held again ▸ inside)
      obtain ⟨same, part⟩ := List.forall_mem_cons.mp part
      rcases List.mem_cons.mp same with rfl | member
      · refine congrArg (value :: ·) (ih nodup second fun later inside => ?_)
        rcases List.mem_cons.mp (part later inside) with rfl | member
        · exact absurd inside (absent first)
        · exact member
      · exact absurd member (absent second)

theorem flatten_sublists {Value : Type} {shorter longer : List (List Value)}
    (sublists : List.Forall₂ List.Sublist shorter longer) :
    shorter.flatten.Sublist longer.flatten := by
  induction sublists with
  | nil => exact List.nil_sublist []
  | cons sublist _ ih => exact sublist.append ih

/-- Parts of the lines that make up the whole are the lines. -/
theorem eq_of_sublists {Value : Type} {shorter longer : List (List Value)}
    (sublists : List.Forall₂ List.Sublist shorter longer)
    (same : shorter.flatten = longer.flatten) : shorter = longer := by
  induction sublists with
  | nil => rfl
  | @cons first second shorter longer sublist sublists ih =>
    have tails := (flatten_sublists sublists).length_le
    have lengths := congrArg List.length same
    rw [List.flatten_cons, List.flatten_cons, List.length_append, List.length_append] at lengths
    have whole : first = second := sublist.eq_of_length_le (by omega)
    subst whole
    rw [ih (List.append_cancel_left same)]

theorem exists_bound (eofs : List Tree) (spelling : Text → Text) :
    ∃ width, ∀ eof ∈ eofs, (markerOf spelling eof).length < width := by
  induction eofs with
  | nil => exact ⟨0, nofun⟩
  | cons eof eofs ih =>
    obtain ⟨width, below⟩ := ih
    refine ⟨width + (markerOf spelling eof).length + 1, List.forall_mem_cons.mpr ⟨by omega, ?_⟩⟩
    intro other member
    have := below other member
    omega

/-- Lines whose markers can be read have texts behind them. -/
theorem exists_readLines {spelling : Text → Text} {lines : List (List Tree)}
    (readable : ∀ eof ∈ lines.flatten, Readable spelling eof) :
    ∃ texts contents, readLines spelling lines texts = .ok contents := by
  obtain ⟨width, below⟩ := exists_bound lines.flatten spelling
  exact ⟨_, readLines_own width readable below (Nat.le_refl width)⟩

/-- Queues from which every document of the lines can be read are the lines. -/
theorem eq_of_readLines {spelling : Text → Text} {lines queued : List (List Tree)}
    (readable : ∀ eof ∈ lines.flatten, Readable spelling eof)
    (same : queued.length = lines.length)
    (reads : ∀ texts contents, readLines spelling lines texts = .ok contents →
      ∃ contents', readLines spelling queued texts = .ok contents' ∧
        ∀ pair ∈ contents, pair ∈ contents') : queued = lines := by
  obtain ⟨width, below⟩ := exists_bound (queued.flatten ++ lines.flatten) spelling
  obtain ⟨short, short'⟩ := List.forall_mem_append.mp below
  obtain ⟨contents, read⟩ := readLines_own width readable short' (Nat.le_refl width)
  have numbers := @numbers_bodiesFrom spelling width lines
  have markers := @markers_bodiesFrom spelling width lines
  have lengths := @lengths_bodiesFrom spelling width lines
  generalize bodiesFrom spelling width lines = bodies at read numbers markers lengths
  obtain ⟨contents', read', part⟩ := reads _ contents read
  have suit : ∀ {eofs : List Tree}, (∀ eof ∈ eofs, (markerOf spelling eof).length < width) →
      ∀ eof ∈ eofs, ∀ body ∈ bodies.flatten, body.Suits (markerOf spelling eof) := by
    intro eofs short eof member body inside
    have number : body.number ∈ List.range' width lines.flatten.length :=
      numbers ▸ List.mem_map_of_mem inside
    have marker : body.marker ∈ lines.flatten.map (markerOf spelling) :=
      markers ▸ List.mem_map_of_mem inside
    obtain ⟨own, among, isOwn⟩ := List.mem_map.mp marker
    refine ⟨isOwn ▸ (readable own among).line, (short eof member).trans_le ?_⟩
    exact (List.mem_range'_1.mp number).1
  have count : bodies.length = lines.length := by
    rw [← List.length_map List.length, lengths, List.length_map]
  obtain ⟨own, sublists₀, lengths₀, begins₀⟩ :=
    readLines_written count.symm short' (suit short') read
  obtain ⟨starts, sublists, lengths', begins⟩ :=
    readLines_written (same.trans count.symm) short (suit short) read'
  have whole₀ : own.flatten = bodies.flatten := by
    refine (flatten_sublists sublists₀).eq_of_length_le ?_
    rw [List.length_flatten, List.length_flatten, lengths₀, lengths]
  rw [whole₀] at begins₀
  have first : List.Forall₂ (fun pair number => Begins number pair.2) contents
    (bodies.flatten.map Body.number) := List.forall₂_map_right_iff.mpr begins₀
  have second : List.Forall₂ (fun pair number => Begins number pair.2) contents'
    (starts.flatten.map Body.number) := List.forall₂_map_right_iff.mpr begins
  have nodup : (bodies.flatten.map Body.number).Nodup := numbers ▸ List.nodup_range'
  -- every number is the number of a document of the lines, and so of one of the queues
  have all : bodies.flatten.map Body.number ⊆ starts.flatten.map Body.number := by
    intro number member
    obtain ⟨pair, inside, held⟩ := exists_of_forall₂ first.flip member
    obtain ⟨number', inside', held'⟩ := exists_of_forall₂ second (part pair inside)
    rwa [number_of_begins held held']
  have whole : starts.flatten = bodies.flatten := by
    refine (flatten_sublists sublists).eq_of_length_le ?_
    have shorter := (nodup.subperm all).length_le
    rwa [List.length_map, List.length_map] at shorter
  rw [whole] at second
  have functional : ∀ (pair : Tree × Tree) (number number' : Nat), Begins number pair.2 →
      Begins number' pair.2 → number = number' := fun _ _ _ begins begins' =>
    number_of_begins begins begins'
  have equal := eq_of_forall₂ functional nodup first second part
  have keys : queued.flatten = lines.flatten := by
    rw [← readLines_keys read', ← equal, readLines_keys read]
  refine List.eq_iff_flatten_eq.mpr ⟨keys, ?_⟩
  rw [← lengths', eq_of_sublists sublists whole, lengths]

/-! ### When documents are matched in order of appearance -/

section Matching

variable (spelling : Text → Text) (line : Derivation .line)

/-- The here documents of a line are matched to their operators in order of appearance: whatever
bodies stand behind its newlines, when they can be read one after the other, each up to the marker
of the operator whose turn it is, then that is what each operator is given. -/
def MatchesInOrder : Prop :=
  ∀ (texts : List Text) (counter : Nat) (contents : List (Tree × Tree)),
    readLines spelling (documentsOf line.appearances) texts = .ok contents →
      ∃ tree parser,
        action spelling (.esNl line) (Parser.start texts counter) = .returns tree parser ∧
        ∀ pair ∈ contents, parser.documents.contents.lookup pair.1 = some pair.2

/-- Each line's documents are queued in the reverse of the order in which they appear, and nothing
else is made of a redirection. -/
def QueuedBackwards : Prop :=
  (∀ event ∈ line.events, event.Mild) ∧
    (documentsOf line.events).map List.reverse = documentsOf line.appearances

theorem not_endfile : ∀ event ∈ line.events, event ≠ .endfile := by
  have marking : ∀ marking : Marking, ∀ event ∈ marking.events, event ≠ .endfile := by
    rintro (_ | _ | _ | _) event member
    · cases member
    all_goals
      rw [List.mem_singleton.mp member]
      nofun
  have inner : ∀ markings : List Marking, ∀ event ∈ Marking.innerEvents markings,
      event ≠ .endfile := by
    intro markings
    induction markings with
    | nil => exact nofun
    | cons first markings ih =>
      cases first with
      | plain => exact ih
      | literal eof => exact List.forall_mem_cons.mpr ⟨nofun, ih⟩
      | missing => exact List.forall_mem_singleton.mpr nofun
      | refused => exact nofun
  refine Derivation.forall_collect reduced nofun (fun _ _ _ => nofun) (fun markings _ => ?_)
    (fun redir cmd mark _ => ?_) line nofun
  · cases markings with
    | nil => exact nofun
    | cons first markings =>
      exact List.forall_mem_append.mpr ⟨marking first, inner markings⟩
  · change ∀ event ∈ (if redir = .thunk ∧ cmd = .node then [Event.braced] else mark.events),
      event ≠ .endfile
    split
    · exact List.forall_mem_singleton.mpr nofun
    · exact marking mark

variable {spelling line}

theorem queues_line :
    queues [] line.events = (documentsOf line.events).map List.reverse := by
  rw [queues_eq]
  generalize (documentsOf line.events).map List.reverse = lines
  cases lines <;> simp

/-- What the actions of a line do to the here documents is what its events do. -/
theorem action_line (texts : List Text) (counter : Nat) :
    Alike (Builds (.esNl line)) (action spelling (.esNl line) (Parser.start texts counter))
      (performs spelling (line.events ++ [.newline]) (Parser.start texts counter)) :=
  action_simulates spelling (.esNl line) (Parser.start texts counter) _ rfl

theorem mem_documentsOf {events : List Event} {eof : Tree} :
    eof ∈ (documentsOf events).flatten ↔ .queued eof ∈ events := by
  induction events with
  | nil => exact iff_of_false nofun nofun
  | cons event events ih =>
    cases event with
    | queued other =>
      rw [documentsOf, List.mem_cons, ← ih]
      have nonempty : documentsOf events ≠ [] := by
        intro empty
        have length := length_documentsOf events
        rw [empty] at length
        cases length
      cases lines : documentsOf events with
      | nil => exact absurd lines nonempty
      | cons first others => simp
    | _ => simp [documentsOf, ih]

theorem lookup_of_mem {contents : List (Tree × Tree)} (distinct : (contents.map Prod.fst).Nodup)
    {pair : Tree × Tree} (member : pair ∈ contents) : contents.lookup pair.1 = some pair.2 := by
  induction contents with
  | nil => cases member
  | cons first contents ih =>
    obtain ⟨fresh, distinct⟩ := List.nodup_cons.mp distinct
    rcases List.mem_cons.mp member with rfl | member
    · rw [List.lookup_cons_self]
    · have other : (pair.1 == first.1) = false :=
        beq_eq_false_iff_ne.mpr fun same => fresh (same ▸ List.mem_map_of_mem member)
      rw [List.lookup_cons, other]
      exact ih distinct member

/-- Documents that are matched in order of appearance were queued backwards. -/
theorem queuedBackwards_of_matchesInOrder
    (readable : ∀ eof, .queued eof ∈ line.appearances → Readable spelling eof)
    (matched : MatchesInOrder spelling line) : QueuedBackwards line := by
  have readable : ∀ eof ∈ (documentsOf line.appearances).flatten, Readable spelling eof :=
    fun eof member => readable eof (mem_documentsOf.mp member)
  have reads : ∀ texts contents,
      readLines spelling (documentsOf line.appearances) texts = .ok contents →
      (∀ event ∈ line.events, event.Mild) ∧ ∃ contents',
        readLines spelling ((documentsOf line.events).map List.reverse) texts = .ok contents' ∧
        ∀ pair ∈ contents, pair ∈ contents' := by
    intro texts contents read
    obtain ⟨tree, parser, returned, found⟩ := matched texts 0 contents read
    have alike := @action_line spelling line texts 0
    rw [returned] at alike
    cases performed : performs spelling (line.events ++ [.newline]) (Parser.start texts 0) with
    | returns _ after =>
      rw [performed] at alike
      cases alike with
      | returns _ shared =>
        obtain ⟨mild, contents', read'⟩ := readLines_of_performs (not_endfile line) performed
        obtain ⟨after', performed', kept⟩ := performs_of_readLines mild read'
        rw [performed] at performed'
        cases performed'
        rw [← queues_line]
        refine ⟨mild, contents', read', fun pair member => ?_⟩
        have contains : parser.documents.contents = contents' := by
          rw [shared, kept]
          rfl
        obtain ⟨before, behind, same, -⟩ :=
          List.lookup_eq_some_iff.mp (contains ▸ found pair member)
        rw [same]
        exact List.mem_append_right _ List.mem_cons_self
    | yyabort _ | assertion =>
      rw [performed] at alike
      cases alike
  obtain ⟨texts, contents, read⟩ := exists_readLines readable
  refine ⟨(reads texts contents read).1, eq_of_readLines readable ?_ fun texts contents read =>
    (reads texts contents read).2⟩
  rw [List.length_map, length_documentsOf, length_documentsOf, ends_events]

/-- The here documents of a line, each known by a word of its own with a marker that can be read,
are matched to their operators in order of appearance exactly when they are queued in the reverse
of that order. -/
theorem matchesInOrder_iff
    (readable : ∀ eof, .queued eof ∈ line.appearances → Readable spelling eof)
    (distinct : (documentsOf line.appearances).flatten.Nodup) :
    MatchesInOrder spelling line ↔ QueuedBackwards line := by
  refine ⟨queuedBackwards_of_matchesInOrder readable, ?_⟩
  rintro ⟨mild, same⟩ texts counter contents read
  rw [← same, ← queues_line] at read
  obtain ⟨after, performed, kept⟩ :=
    @performs_of_readLines spelling _ mild (Parser.start texts counter) contents read
  have alike := @action_line spelling line texts counter
  rw [performed] at alike
  generalize action spelling (.esNl line) (Parser.start texts counter) = left at alike ⊢
  cases alike with
  | @returns tree parser _ _ shared =>
    refine ⟨tree, parser, rfl, fun pair member => ?_⟩
    have contains : parser.documents.contents = contents := by
      rw [shared, kept]
      rfl
    rw [contains]
    refine lookup_of_mem ?_ member
    rw [readLines_keys read, queues_line, same]
    exact distinct

end Matching

theorem readable_of_documentsOf {spelling : Text → Text} {line : Derivation .line}
    {eofs : List Tree} (same : (documentsOf line.appearances).flatten = eofs)
    (readable : ∀ eof ∈ eofs, Readable spelling eof) (eof : Tree)
    (member : .queued eof ∈ line.appearances) : Readable spelling eof :=
  readable eof (same ▸ mem_documentsOf.mpr member)

theorem readable_letters : ∀ eof ∈ [nWord (lit "A"), nWord (lit "B")], Readable id eof := by
  refine List.forall_mem_cons.mpr ⟨⟨⟨?_, ?_⟩, ?_⟩, List.forall_mem_singleton.mpr ⟨⟨?_, ?_⟩, ?_⟩⟩
  all_goals decide

open Derivation

/-- The word of some letters. -/
def letters (s : Text) (plain : '$'.toUInt8 ∉ s) : Derivation .comword :=
  comwordParam (paramWord s plain)

/-- The operator of a here document in front of its marker. -/
def hereDocument (s : Text) (plain : '$'.toUInt8 ∉ s) : Derivation .redir :=
  redirWord .heredoc 0 (wordSword (swordComword (letters s plain)))

/-- The line `<<A <<B cat`. -/
def documentsInFront : Derivation .line :=
  lineCmd (cmdRedir (hereDocument (lit "A") (by decide))
    (cmdRedir (hereDocument (lit "B") (by decide))
      (cmdSimple (simpleFirst (firstComword (letters (lit "cat") (by decide)))))))

theorem documentsInFront_matchesInOrder : MatchesInOrder id documentsInFront :=
  have both : (documentsOf documentsInFront.appearances).flatten =
    [nWord (lit "A"), nWord (lit "B")] := by decide
  (matchesInOrder_iff (readable_of_documentsOf both readable_letters) (by decide)).mpr
    ⟨by decide, by decide⟩

/-- The line `cat <<A <<B`. -/
def documentsBehind : Derivation .line :=
  lineCmd (cmdSimple (simpleRedir
    (simpleRedir (simpleFirst (firstComword (letters (lit "cat") (by decide))))
      (hereDocument (lit "A") (by decide)))
    (hereDocument (lit "B") (by decide))))

theorem documentsBehind_out_of_order :
    (esNl documentsBehind).items =
        (yylexes 6 (inityy (lit "cat <<A <<B\n"))).1.map Item.shift ++ [Item.reads] ∧
      ¬MatchesInOrder id documentsBehind := by
  refine ⟨by decide +kernel, fun matched => ?_⟩
  have both : (documentsOf documentsBehind.appearances).flatten =
    [nWord (lit "A"), nWord (lit "B")] := by decide
  have backwards := queuedBackwards_of_matchesInOrder
    (readable_of_documentsOf both readable_letters) matched
  exact absurd backwards.2 (by decide)

end Desh

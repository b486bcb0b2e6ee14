import DeclLang.Proofs.Module.Correspondence
import DeclLang.Proofs.Text.Moved

/-!
# Ends of lines

It makes no difference to a text whether its lines end with a line feed alone or with a carriage
return before it (`Module.parse_crlf`).  A carriage return is a blank that may stand before a line
feed, and the column begins again behind the line feed; so all that changes is the number of bytes.

This is about every text, also one that is refused and one that has carriage returns already,
wherever they stand.
-/

namespace DeclLang

open Grammar Text

/-! ### Carriage returns -/

namespace Text

/-- The text with a carriage return before each line feed. -/
def crlf (cs : List Char) : List Char := cs.flatMap fun c => if c = '\n' then ['\r', '\n'] else [c]

/-- Number of line feeds among so many bytes at the beginning of the text. -/
def lineFeeds : List Char → Nat → Nat
  | [], _ => 0
  | c :: cs, bytes =>
    if bytes = 0 then 0 else [c].count '\n' + lineFeeds cs (bytes - c.utf8Size)

variable {p : Char → Bool} {cs ds es : List Char}

@[simp] theorem crlf_nil : crlf [] = [] := rfl

@[simp] theorem crlf_lineFeed (cs : List Char) : crlf ('\n' :: cs) = '\r' :: '\n' :: crlf cs := rfl

theorem crlf_cons {c : Char} (hc : c ≠ '\n') (cs : List Char) : crlf (c :: cs) = c :: crlf cs := by
  simp [crlf, hc]

theorem crlf_append (cs ds : List Char) : crlf (cs ++ ds) = crlf cs ++ crlf ds :=
  List.flatMap_append

/-- In a text without line feeds nothing changes. -/
theorem crlf_eq_self (hp : p '\n' = false) (h : ∀ c ∈ cs, p c = true) : crlf cs = cs := by
  induction cs with
  | nil => rfl
  | cons c cs ih =>
    have hc : c ≠ '\n' := by
      rintro rfl
      exact Bool.false_ne_true (hp.symm.trans (h _ List.mem_cons_self))
    rw [crlf_cons hc, ih fun d hd => h d (List.mem_cons_of_mem c hd)]

/-- A run of a class stays one, if a line feed and a carriage return are both in it or both not. -/
theorem takeWhile_crlf (hp : p '\r' = p '\n') (cs : List Char) :
    (crlf cs).takeWhile p = crlf (cs.takeWhile p) := by
  induction cs with
  | nil => rfl
  | cons c cs ih =>
    by_cases hc : c = '\n'
    · subst hc
      cases hn : p '\n' <;> simp_all
    · cases hn : p c <;> simp_all [crlf_cons hc]

theorem crlf_ne_nil (h : cs ≠ []) : crlf cs ≠ [] := by
  cases cs with
  | nil => exact absurd rfl h
  | cons c cs => by_cases hc : c = '\n' <;> simp [crlf, hc]

theorem stops_crlf (hp : p '\r' = p '\n') (h : Stops p cs) : Stops p (crlf cs) := by
  cases cs with
  | nil => exact stops_nil p
  | cons c cs =>
    by_cases hc : c = '\n'
    · subst hc
      exact stops_cons.2 (hp.trans (stops_cons.1 h))
    · rw [crlf_cons hc]
      exact stops_cons.2 (stops_cons.1 h)

theorem mem_crlf {c : Char} (h : c ∈ cs) : c ∈ crlf cs := by
  refine List.mem_flatMap.2 ⟨c, h, ?_⟩
  split <;> simp_all

/-- Before each line feed there is a carriage return that is new. -/
theorem exists_of_crlf_eq (h : crlf cs = ds ++ '\n' :: es) :
    ∃ as bs, cs = as ++ '\n' :: bs ∧ ds = crlf as ++ ['\r'] ∧ es = crlf bs := by
  induction cs generalizing ds with
  | nil => simp at h
  | cons c cs ih =>
    by_cases hc : c = '\n'
    · subst hc
      rw [crlf_lineFeed] at h
      match ds with
      | [] => simp at h
      | [d] =>
        simp only [List.cons_append, List.nil_append, List.cons.injEq, true_and] at h
        obtain ⟨rfl, rfl⟩ := h
        exact ⟨[], cs, rfl, rfl, rfl⟩
      | d :: d' :: ds =>
        simp only [List.cons_append, List.cons.injEq] at h
        obtain ⟨rfl, rfl, h⟩ := h
        obtain ⟨as, bs, rfl, rfl, rfl⟩ := ih h
        exact ⟨'\n' :: as, bs, rfl, rfl, rfl⟩
    · rw [crlf_cons hc] at h
      cases ds with
      | nil => simp [hc] at h
      | cons d ds =>
        simp only [List.cons_append, List.cons.injEq] at h
        obtain ⟨rfl, h⟩ := h
        obtain ⟨as, bs, rfl, rfl, rfl⟩ := ih h
        exact ⟨c :: as, bs, rfl, by rw [crlf_cons hc]; rfl, rfl⟩

theorem lineFeeds_append (cs ds : List Char) :
    lineFeeds (cs ++ ds) (String.ofList cs).utf8ByteSize = cs.count '\n' := by
  induction cs with
  | nil => cases ds <;> simp [lineFeeds]
  | cons c cs ih =>
    have := c.utf8Size_pos
    rw [String.ofList_cons, String.utf8ByteSize_append, String.utf8ByteSize_singleton,
      List.cons_append, lineFeeds, if_neg (by omega), Nat.add_sub_cancel_left, ih,
      ← List.count_append, List.singleton_append]

/-- Behind the carriage returns come more bytes, on the same lines and in the same columns. -/
theorem Place.afterAll_crlf (q : Place) (bytes : Nat) (cs : List Char) :
    (q.moved bytes 0).afterAll (crlf cs) = (q.afterAll cs).moved (bytes + cs.count '\n') 0 := by
  induction cs generalizing q bytes with
  | nil => rfl
  | cons c cs ih =>
    by_cases hc : c = '\n'
    · subst hc
      have hfeed : ((q.moved bytes 0).after '\r').after '\n' =
          (q.after '\n').moved (bytes + 1) 0 := by
        have hreturn : '\r'.utf8Size = 1 := by decide
        rw [after, if_pos rfl, after, if_neg (by decide), after, if_pos rfl]
        simp only [moved, Place.mk.injEq, and_true]
        omega
      rw [crlf_lineFeed, afterAll_cons, afterAll_cons, hfeed, ih, afterAll_cons,
        List.count_cons_self, Nat.add_assoc, Nat.add_comm 1]
    · rw [crlf_cons hc, afterAll_cons, moved_after, ih, afterAll_cons, List.count_cons_of_ne hc]

end Text

/-! ### The two texts -/

/-- The same mark of the text and of the text with carriage returns. -/
def Returned (text : String) (m m' : Mark) : Prop :=
  ∃ cs, (Mark.start text).Passes cs m ∧
    (Mark.start (String.ofList (crlf text.toList))).Passes (crlf cs) m'

namespace Returned

variable {text : String} {m m' n n' : Mark} {cs : List Char}

theorem start (text : String) :
    Returned text (.start text) (.start (String.ofList (crlf text.toList))) :=
  ⟨[], .refl _, .refl _⟩

theorem rest_eq (h : Returned text m m') : m'.rest = crlf m.rest := by
  obtain ⟨cs, hpass, hpass'⟩ := h
  have hrest := hpass'.1
  rw [Mark.start, String.toList_ofList, show text.toList = cs ++ m.rest from hpass.1,
    crlf_append] at hrest
  exact (List.append_cancel_left hrest).symm

theorem place_eq (h : Returned text m m') :
    m'.place = m.place.moved (lineFeeds text.toList m.place.offset) 0 := by
  obtain ⟨cs, hpass, hpass'⟩ := h
  have hfeeds : lineFeeds text.toList m.place.offset = cs.count '\n' := by
    rw [hpass.2, Place.offset_afterAll, show text.toList = cs ++ m.rest from hpass.1]
    exact (congrArg _ (Nat.zero_add _)).trans (lineFeeds_append cs m.rest)
  rw [hfeeds, hpass.2, hpass'.2]
  exact (Place.start.afterAll_crlf 0 cs).trans (by rw [Nat.zero_add]; rfl)

theorem passes (h : Returned text m m') (hpass : m.Passes cs n) (hpass' : m'.Passes (crlf cs) n') :
    Returned text n n' := by
  obtain ⟨before, hbefore, hbefore'⟩ := h
  exact ⟨before ++ cs, hbefore.trans hpass, by rw [crlf_append]; exact hbefore'.trans hpass'⟩

theorem indent? (h : Returned text m m') :
    Option.Rel (fun found found' => found'.1 = found.1 ∧ Returned text found.2 found'.2)
      m.indent? m'.indent? := by
  have hself {pad : List Char} (hpad : ∀ c ∈ pad, isPad c = true) : crlf pad = pad :=
    crlf_eq_self (by decide) hpad
  cases hm : m.indent? with
  | some found =>
    obtain ⟨width, n⟩ := found
    obtain ⟨tail, pad, htail, hpad, hlength, hwidth, hstop, hpass⟩ := Mark.indent?_eq_some_iff.1 hm
    have hcrlf : crlf (tail ++ '\n' :: pad) = (tail ++ ['\r']) ++ '\n' :: pad := by
      rw [crlf_append, crlf_eq_self (by decide) htail, crlf_lineFeed, hself hpad]
      simp
    have hpass' : m'.Passes ((tail ++ ['\r']) ++ '\n' :: pad)
        ⟨m'.place.afterAll ((tail ++ ['\r']) ++ '\n' :: pad), crlf n.rest⟩ :=
      Mark.passes_of_rest_eq (by rw [h.rest_eq, hpass.1, crlf_append, hcrlf])
    have hfound' := Mark.indent?_eq_some_iff.2 ⟨tail ++ ['\r'], pad, ?_, hpad, hlength, hwidth,
      ?_, hpass'⟩
    · rw [hfound']
      exact .some ⟨rfl, h.passes hpass (hcrlf ▸ hpass')⟩
    · intro c hc
      rcases List.mem_append.1 hc with hc | hc
      · exact htail c hc
      · rw [List.mem_singleton.1 hc]
        decide
    · exact stops_crlf (by decide) hstop
  | none =>
    cases hm' : m'.indent? with
    | none => exact .none
    | some found =>
      obtain ⟨width, n'⟩ := found
      obtain ⟨tail, pad, htail, hpad, hlength, hwidth, hstop, hpass⟩ :=
        Mark.indent?_eq_some_iff.1 hm'
      have hrest := hpass.1
      rw [h.rest_eq, List.append_assoc, List.cons_append] at hrest
      obtain ⟨as, bs, hmark, rfl, hbs⟩ := exists_of_crlf_eq hrest
      -- The indentation was there without the carriage returns.
      have hpads : bs.takeWhile isPad = pad := by
        have htake := takeWhile_append_of_stops hpad hstop
        rw [hbs, takeWhile_crlf (by decide), hself fun c hc => List.mem_takeWhile_imp hc] at htake
        exact htake
      have hblanks : ∀ c ∈ as, isLineBlank c = true := fun c hc =>
        htail c (List.mem_append_left _ (mem_crlf hc))
      have hne : pad ≠ [] := by
        rintro rfl
        exact hwidth hlength.symm
      have hline : m.rest = as ++ '\n' :: pad ++ bs.dropWhile isPad := by
        rw [hmark, ← hpads, List.append_assoc, List.cons_append, List.takeWhile_append_dropWhile]
      exact absurd hm (indent?_ne_none hblanks hpad hne hline)

/-- Nothing is read differently in a text with carriage returns. -/
theorem correspondence (text : String) : Correspondence (Returned text) where
  skipSpace {m m'} h := by
    refine h.passes m.skipSpace_passes ?_
    rw [← takeWhile_crlf (by decide), ← h.rest_eq]
    exact m'.skipSpace_passes
  solid {m m'} h _ := by
    rw [Mark.solid, h.rest_eq, takeWhile_crlf (by decide)]
    exact crlf_eq_self (p := fun c => !isBlank c) (by decide) fun c hc =>
      List.mem_takeWhile_imp (p := fun c => !isBlank c) hc
  atEnd h hend := by
    rw [h.rest_eq, hend]
    exact stops_nil _
  passes {m m' n n' cs} h hcs hpass hpass' := by
    have hself : crlf cs = cs := crlf_eq_self (p := fun c => !isBlank c) (by decide)
      fun c hc => by simp [hcs c hc]
    exact h.passes hpass (hself.symm ▸ hpass')
  indent? := indent?

end Returned

/-! ### Modules -/

/-- The diagnostic of a text with carriage returns that is a diagnostic of the text. -/
def Diagnostic.returned (text : String) (d : Diagnostic) : Diagnostic :=
  { d with location.place.offset :=
      d.location.place.offset + lineFeeds text.toList d.location.place.offset }

theorem Grammar.Counterpart.eq_returned {text : String} {d d' : Diagnostic}
    (h : Counterpart (Returned text) d d') : d' = d.returned text :=
  h.eq_of_place fun m m' hm hplace => by rw [hm.place_eq, hplace]; rfl

namespace Module

/-- **The ends of lines do not matter.**  With a carriage return before each line feed a text is
accepted if it was accepted, and refused if it was refused.  The declarations are the same, and so
are the diagnostics or the reason to refuse it, by kind, line and column; the offsets are larger by
the number of line feeds before. -/
theorem parse_crlf (text filename : String) :
    parse (String.ofList (crlf text.toList)) filename = match parse text filename with
      | .ok module =>
        .ok { module with diagnostics := module.diagnostics.map (Diagnostic.returned text) }
      | .error e => .error (e.returned text) := by
  have C := Returned.correspondence text
  have hmap {ds ds' : List Diagnostic} (h : List.Forall₂ (Counterpart (Returned text)) ds ds') :
      ds' = ds.map (Diagnostic.returned text) :=
    eq_map_of_forall₂ h fun _ _ _ hd => hd.eq_returned
  cases h : parse text filename with
  | ok module =>
    obtain ⟨parts, hparts, rfl⟩ := parse_eq_ok_iff.1 h
    obtain ⟨m, hstretch, hend⟩ := declares_iff.1 hparts
    obtain ⟨parts', m', hstretch', hm, hsame, hdiagnostics⟩ := hstretch.transfer C (.start text)
    refine parse_eq_ok_iff.2 ⟨parts', declares_iff.2 ⟨m', hstretch', ?_⟩, ?_⟩
    · rw [hm.rest_eq, hend, crlf_nil]
    · rw [hsame, hmap hdiagnostics]
  | error e =>
    obtain ⟨parts, m, recorded, hstretch, hmore, hrun, rfl⟩ := parse_eq_error_iff.1 h
    obtain ⟨parts', m', hstretch', hm, -, hdiagnostics⟩ := hstretch.transfer C (.start text)
    have hspace : m.skipSpace.rest ≠ [] := by rwa [Mark.skipSpace_eq_self hstretch.stops]
    have halike : Alike (Returned text) ⟨filename, m, []⟩ ⟨filename, m', []⟩ := ⟨rfl, hm, .nil⟩
    obtain ⟨found, r, r', hfound, hrun', -, -, hrecorded⟩ := (C.declaration halike hspace).elim
    rw [hrun] at hfound
    cases hfound
    obtain ⟨-, new, rfl, -⟩ := run_declaration_none hrun'
    refine parse_eq_error_iff.2
      ⟨parts', m', _, hstretch', hm.rest_eq ▸ crlf_ne_nil hmore, hrun', ?_⟩
    have hall : new.toList ++ parts'.flatMap Prod.snd =
        (recorded ++ parts.flatMap Prod.snd).map (Diagnostic.returned text) :=
      hmap (List.rel_append hrecorded hdiagnostics)
    change _ = (new.toList ++ parts'.flatMap Prod.snd).headD _
    rw [hall, hm.place_eq]
    cases recorded ++ parts.flatMap Prod.snd <;> rfl

end Module

end DeclLang

import Untangle.Descriptor

/-!
# Descriptors are read exactly

A text that is read as a type, or as the descriptor of a method, is the written form of what was read. So
there is nothing in such a text but the characters of its types.

The written form is read back if the names of classes can be told from what follows them: they are not empty
and have no semicolon. In what was read they always can.
-/

namespace Untangle

open List MethodDescriptor FieldType

variable {cs : List Char} {t : FieldType} {s : String} {rest : List Char} {steps : Nat} {params : List FieldType}
  {result : Option FieldType}

/-- The names in a type can be told from what follows them. -/
def FieldType.Nameable : FieldType → Prop
  | object name => name ≠ "" ∧ ';' ∉ name.toList
  | array element => element.Nameable
  | _ => True

/-- What is read as a type is the written form of it, and the names in it can be told from what follows them. -/
theorem FieldType.chars_of_scan (h : scan cs = some (t, rest)) : t.Nameable ∧ cs = t.chars ++ rest := by
  fun_induction scan cs generalizing t rest with
  | case9 cs ih =>
    obtain ⟨⟨_, _⟩, hscan, heq⟩ := Option.map_eq_some_iff.mp h
    cases heq
    obtain ⟨hnames, hcs⟩ := ih hscan
    exact ⟨hnames, congrArg ('[' :: ·) hcs⟩
  | case10 cs c name sep tail htail hname =>
    cases h
    have hclear : (c :: name).all (· != ';') = true := hname ▸ all_takeWhile
    have hsep := head?_dropWhile_not (· != ';') cs
    rw [htail, head?_cons] at hsep
    have hsplit : cs = (c :: name) ++ sep :: tail := by
      rw [← hname, ← htail, takeWhile_append_dropWhile]
    simp only [bne_eq_false_iff_eq] at hsep
    refine ⟨⟨by simp, fun hmem => ?_⟩, by simp [hsplit, chars, hsep]⟩
    rw [String.toList_ofList] at hmem
    simpa using all_eq_true.mp hclear _ hmem
  | case11 => cases h
  | case12 => cases h
  | _ =>
    cases h
    exact ⟨trivial, rfl⟩

/-- The written form of a type is read back, whatever follows. -/
theorem FieldType.scan_chars (h : t.Nameable) (rest : List Char) : scan (t.chars ++ rest) = some (t, rest) := by
  induction t with
  | array _ ih =>
    have hscan := ih h
    simp [chars, scan, hscan]
  | object name =>
    obtain ⟨hne, hsep⟩ := h
    obtain ⟨c, cs, hcs⟩ := exists_cons_of_ne_nil (mt String.toList_eq_nil_iff.mp hne)
    have hall : ∀ x ∈ name.toList, (x != ';') = true := fun x hx => bne_iff_ne.mpr fun hx' => hsep (hx' ▸ hx)
    have htake : (name.toList ++ ';' :: rest).takeWhile (· != ';') = c :: cs := by
      rw [takeWhile_append_of_pos hall, hcs]
      simp
    have hdrop : (name.toList ++ ';' :: rest).dropWhile (· != ';') = ';' :: rest := by
      rw [dropWhile_append_of_pos hall]
      simp
    have hchars : (object name).chars ++ rest = 'L' :: (name.toList ++ ';' :: rest) := by simp [chars]
    rw [hchars, scan]
    simp only [htake, hdrop]
    rw [← hcs, String.ofList_toList]
  | _ => rfl

/-- A text is read as a type exactly if it is the written form of that type, and the names in it can be told from
what follows them. -/
theorem FieldType.parse_eq_ok_iff : parse s = .ok t ↔ t.Nameable ∧ t.text = s := by
  unfold parse
  constructor
  · intro h
    split at h
    · next hscan =>
      cases h
      obtain ⟨hnames, hchars⟩ := chars_of_scan hscan
      rw [append_nil] at hchars
      exact ⟨hnames, by rw [text, ← hchars, String.ofList_toList]⟩
    · cases h
  · rintro ⟨hnames, rfl⟩
    have hscan := scan_chars hnames []
    rw [append_nil] at hscan
    rw [text, String.toList_ofList, hscan]

theorem FieldType.length_chars_pos (t : FieldType) : 0 < t.chars.length := by
  cases t <;> simp [chars]

namespace MethodDescriptor

variable {d d' : MethodDescriptor}

/-- The names in a descriptor can be told from what follows them. -/
def Nameable (d : MethodDescriptor) : Prop := (∀ t ∈ d.params, t.Nameable) ∧ ∀ t ∈ d.result, t.Nameable

/-! ### What was read is what was written -/

theorem chars_of_scanParams {done : List FieldType} (h : scanParams steps done cs = some (params, rest)) :
    ∃ read, params = done.reverse ++ read ∧ (∀ t ∈ read, t.Nameable) ∧
      cs = read.flatMap FieldType.chars ++ ')' :: rest := by
  fun_induction scanParams steps done cs with
  | case1 => cases h
  | case2 =>
    cases h
    exact ⟨[], by simp, by simp, rfl⟩
  | case3 steps done cs _ t _ hscan ih =>
    obtain ⟨read, hparams, hnames, hrest⟩ := ih h
    obtain ⟨hname, hcs⟩ := chars_of_scan hscan
    refine ⟨t :: read, by simp [hparams], forall_mem_cons.mpr ⟨hname, hnames⟩, ?_⟩
    rw [hcs, hrest, flatMap_cons, append_assoc]
  | case4 => cases h

theorem chars_of_scanResult (h : scanResult cs = some result) :
    (∀ t ∈ result, t.Nameable) ∧ cs = resultChars result := by
  unfold scanResult at h
  split at h
  · cases h
    exact ⟨by simp, rfl⟩
  · split at h
    · next t hscan =>
      cases h
      obtain ⟨hname, hcs⟩ := chars_of_scan hscan
      rw [append_nil] at hcs
      exact ⟨by simpa using hname, hcs⟩
    · cases h

theorem chars_of_scan (h : scan cs = some d) : d.Nameable ∧ cs = d.chars := by
  fun_cases scan cs with
  | case1 =>
    simp only [scan, Option.bind_eq_bind, Option.bind_eq_some_iff] at h
    obtain ⟨⟨_, tail⟩, hparams, result, hresult, ⟨⟩⟩ := h
    obtain ⟨_, rfl, hnames, hrest⟩ := chars_of_scanParams hparams
    obtain ⟨hname, htail⟩ := chars_of_scanResult hresult
    refine ⟨⟨by simpa using hnames, hname⟩, ?_⟩
    rw [hrest, show tail = resultChars result from htail]
    rfl
  | case2 => simp_all [scan]

/-! ### Reading what was written -/

theorem scanParams_chars (h : ∀ t ∈ params, t.Nameable) (hsteps : params.length < steps) (done : List FieldType)
    (rest : List Char) :
    scanParams steps done (params.flatMap FieldType.chars ++ ')' :: rest) = some (done.reverse ++ params, rest) := by
  induction params generalizing steps done with
  | nil =>
    obtain ⟨steps, rfl⟩ := Nat.exists_eq_succ_of_ne_zero (Nat.ne_of_gt hsteps)
    simp [scanParams]
  | cons t params ih =>
    obtain ⟨steps, rfl⟩ := Nat.exists_eq_succ_of_ne_zero (Nat.ne_of_gt (Nat.zero_lt_of_lt hsteps))
    rw [forall_mem_cons] at h
    have hscan := scan_chars h.1 (params.flatMap FieldType.chars ++ ')' :: rest)
    rw [flatMap_cons, append_assoc, scanParams, hscan]
    · simp [ih h.2 (Nat.lt_of_succ_lt_succ hsteps) (t :: done)]
    · -- no type is written with a closing parenthesis in front
      intro _ hclose
      rw [hclose] at hscan
      cases hscan

theorem length_le_length_chars (params : List FieldType) : params.length ≤ (params.flatMap FieldType.chars).length := by
  induction params with
  | nil => exact Nat.le_refl 0
  | cons t params =>
    have := t.length_chars_pos
    simp only [length_cons, flatMap_cons, length_append]
    omega

theorem scanResult_chars (h : ∀ t ∈ result, t.Nameable) : scanResult (resultChars result) = some result := by
  cases result with
  | none => rfl
  | some t =>
    have hscan := scan_chars (h t rfl) []
    rw [append_nil] at hscan
    rw [resultChars, scanResult, hscan]
    intro hvoid
    rw [hvoid] at hscan
    cases hscan

/-- A descriptor is read back from its written form. -/
theorem parse_text (hparams : ∀ t ∈ d.params, t.Nameable) (hresult : ∀ t ∈ d.result, t.Nameable) :
    parse d.text = .ok d := by
  have hsteps : d.params.length < (d.params.flatMap FieldType.chars ++ ')' :: resultChars d.result).length := by
    have := length_le_length_chars d.params
    simp only [length_append, length_cons]
    omega
  have hscan : scan d.chars = some d := by
    simp only [chars, scan, scanParams_chars hparams hsteps, Option.bind_eq_bind, Option.bind_some,
      scanResult_chars hresult]
    rfl
  rw [parse, text, String.toList_ofList, hscan]

/-! ### Reading exactly what is written -/

/-- A text is read as a descriptor exactly if it is the written form of that descriptor, and the names in it can be
told from what follows them. -/
theorem parse_eq_ok_iff : parse s = .ok d ↔ d.Nameable ∧ d.text = s := by
  constructor
  · intro h
    unfold parse at h
    split at h
    · next hscan =>
      cases h
      obtain ⟨hnames, hchars⟩ := chars_of_scan hscan
      exact ⟨hnames, by rw [text, ← hchars, String.ofList_toList]⟩
    · cases h
  · rintro ⟨hnames, rfl⟩
    exact parse_text hnames.1 hnames.2

theorem toList_of_parse (h : parse s = .ok d) : s.toList = d.chars := by
  rw [← (parse_eq_ok_iff.mp h).2, text, String.toList_ofList]

/-! ### The receiver -/

/-- What is taken off is a reference, and nothing else changes. -/
theorem params_of_withoutReceiver (h : d.withoutReceiver = some d') :
    ∃ receiver, d.params = receiver :: d'.params ∧ d.result = d'.result ∧ receiver.slots = 1 := by
  unfold withoutReceiver at h
  split at h
  · next hparams =>
    cases h
    exact ⟨_, hparams, rfl, rfl⟩
  · next hparams =>
    cases h
    exact ⟨_, hparams, rfl, rfl⟩
  · cases h

theorem Nameable.withoutReceiver (h : d.Nameable) (hd : d.withoutReceiver = some d') : d'.Nameable := by
  obtain ⟨_, hparams, hresult, -⟩ := params_of_withoutReceiver hd
  rw [Nameable, hparams, hresult, forall_mem_cons] at h
  exact ⟨h.1.2, h.2⟩

theorem argSlots_of_withoutReceiver (h : d.withoutReceiver = some d') : d.argSlots = d'.argSlots + 1 := by
  obtain ⟨_, hparams, -, hslots⟩ := params_of_withoutReceiver h
  rw [argSlots, hparams, foldr_cons, hslots, Nat.add_comm]
  rfl

end MethodDescriptor

/-- Types and descriptors are read from their written forms and from no other text, where a class name is not empty
and has no semicolon. A descriptor that was read can still be read once its receiver is taken off, and its
arguments then take one slot less. -/
theorem descriptors_read_exactly :
    (∀ (s : String) (t : FieldType), FieldType.parse s = .ok t ↔ t.Nameable ∧ t.text = s) ∧
      (∀ (s : String) (d : MethodDescriptor), MethodDescriptor.parse s = .ok d ↔ d.Nameable ∧ d.text = s) ∧
      ∀ (s : String) (d d' : MethodDescriptor), MethodDescriptor.parse s = .ok d → d.withoutReceiver = some d' →
        MethodDescriptor.parse d'.text = .ok d' ∧ d.argSlots = d'.argSlots + 1 := by
  refine ⟨fun s t => parse_eq_ok_iff, fun s d => parse_eq_ok_iff, fun s d d' h hd => ?_⟩
  have hnames : d'.Nameable := (parse_eq_ok_iff.mp h).1.withoutReceiver hd
  exact ⟨parse_eq_ok_iff.mpr ⟨hnames, rfl⟩, argSlots_of_withoutReceiver hd⟩

/-- A receiver whose name has the characters in it that end the parameters, and two arguments. -/
def oddReceiver : MethodDescriptor := ⟨[.object ")V(", .array (.array .long), .double], some (.array .int)⟩

theorem oddReceiver_read_exactly :
    MethodDescriptor.parse "(L)V(;[[JD)[I" = .ok oddReceiver ∧
      ∃ d, oddReceiver.withoutReceiver = some d ∧ MethodDescriptor.parse d.text = .ok d ∧
        oddReceiver.argSlots = d.argSlots + 1 :=
  ⟨rfl, _, rfl, descriptors_read_exactly.2.2 "(L)V(;[[JD)[I" oddReceiver _ rfl rfl⟩

end Untangle

import MerlinV.Sign.Binding

/-! # Embedding the signature

`merlin_sig_embed` takes the section list apart into names, types, flags and contents and writes it
anew.  On these four the round trip is exact, which is all that hashing and verification look at.
-/
namespace MerlinV
open Lib

variable {C : SignCrypto} {L : Libelf} {o o' : ElfObject}

/-- What hashing and verification see of a section. -/
structure SectionView where
  name : Option Bytes
  shType : BitVec 32
  contents : Bytes

def ElfObject.viewOf (o : ElfObject) (s : ElfSection) : SectionView := ⟨o.nameOf s, s.shType, s.contents⟩

def ElfObject.views (o : ElfObject) : List SectionView := o.sections.map o.viewOf

def SecIn.view (s : SecIn) : SectionView := ⟨some s.name, s.shType, s.buf⟩

/-- libelf keeps what `merlin_sig_embed` gives it: the names, types, flags, sizes, links and contents of
fewer than `0xff00` sections (section zero included) are read back as they were written. -/
structure Libelf.Faithful (L : Libelf) : Prop where
  write : ∀ img out, img.sections.length + 1 < 0xff00 → L.write img = some out →
    out = { img with sections := img.sections.map (L.finish img.eClass img.eMachine) }
  shName : ∀ c m s off, (L.finish c m (newSection s off)).shName = off
  shType : ∀ c m s off, (L.finish c m (newSection s off)).shType = s.shType
  shFlags : ∀ c m s off, (L.finish c m (newSection s off)).shFlags = s.shFlags
  shSize : ∀ c m s off, (L.finish c m (newSection s off)).shSize = s.buf.length
  shLink : ∀ c m s off, (L.finish c m (newSection s off)).shLink = 0
  shInfo : ∀ c m s off, (L.finish c m (newSection s off)).shInfo = 0
  contents : ∀ c m s off, (L.finish c m (newSection s off)).contents = (newSection s off).contents

section Tables

theorem stringAt_append (pre post : Bytes) {name : Bytes} (hname : 0 ∉ name) :
    stringAt (pre ++ name ++ [0] ++ post) pre.length = some name := by
  have hdrop : (pre ++ name ++ [0] ++ post).drop pre.length = name ++ 0 :: post := by simp
  have htake : (name ++ 0 :: post).takeWhile (· ≠ 0) = name := by
    rw [List.takeWhile_append_of_pos (by
      intro b hb
      simpa using fun h : b = 0 => hname (h ▸ hb))]
    simp
  simp only [stringAt, hdrop, htake]
  simp

theorem stringAt_noZero {tab name : Bytes} {off : ℕ} (h : stringAt tab off = some name) : 0 ∉ name := by
  simp only [stringAt] at h
  split at h
  · obtain rfl := Option.some.inj h
    intro hmem
    have hne := List.all_takeWhile (p := fun b : Byte => decide (b ≠ 0)) (l := tab.drop off)
    rw [List.all_eq_true] at hne
    simpa using hne 0 hmem
  · cases h

theorem writeSections_prefix (sht : Bytes) (ss : List SecIn) :
    ∃ tail, (writeSections sht ss).1 = sht ++ tail := by
  induction ss generalizing sht with
  | nil => exact ⟨[], by simp [writeSections]⟩
  | cons s ss ih =>
    obtain ⟨tail, htail⟩ := ih (appendName sht s.name)
    refine ⟨s.name ++ [0] ++ tail, ?_⟩
    simp only [writeSections, htail]
    simp [appendName]

def nameBytes (ss : List SecIn) : ℕ := (ss.map fun s => s.name.length + 1).sum

theorem writeSections_length (sht : Bytes) (ss : List SecIn) :
    (writeSections sht ss).1.length = sht.length + nameBytes ss := by
  induction ss generalizing sht with
  | nil => simp [writeSections, nameBytes]
  | cons s ss ih =>
    have hrest := ih (appendName sht s.name)
    simp only [appendName, nameBytes, List.length_append, List.length_singleton] at hrest
    simp only [writeSections, nameBytes, List.map_cons, List.sum_cons]
    simp only [appendName]
    omega

/-- A record that can be written: its name is a C string, and `SHT_NOBITS` has no bytes. -/
structure SecIn.Ok (s : SecIn) : Prop where
  name : 0 ∉ s.name
  nobits : s.shType = shtNobits → s.buf = []

def Written (tab : Bytes) (s : SecIn) (e : ElfSection) : Prop :=
  ∃ off, e = newSection s off ∧ stringAt tab off = some s.name ∧ e.contents = s.buf

theorem newSection_contents {s : SecIn} (hs : s.Ok) (off : ℕ) : (newSection s off).contents = s.buf := by
  by_cases hn : s.shType = shtNobits
  · simp [ElfSection.contents, ElfSection.getdata, newSection, hn, hs.nobits hn]
  · by_cases h : s.buf = [] <;> simp [newSection, ElfSection.contents, ElfSection.getdata, h, hn]

/-- The sections that are written have their names in every table that extends the one written. -/
theorem writeSections_written {ss : List SecIn} (hss : ∀ s ∈ ss, s.Ok) (sht post : Bytes)
    (hfit : sht.length + nameBytes ss ≤ 2 ^ 32) :
    List.Forall₂ (Written ((writeSections sht ss).1 ++ post)) ss (writeSections sht ss).2 := by
  induction ss generalizing sht with
  | nil => exact .nil
  | cons s ss ih =>
    have hbytes : nameBytes (s :: ss) = s.name.length + 1 + nameBytes ss := by
      rw [nameBytes, List.map_cons, List.sum_cons, nameBytes]
    obtain ⟨tail, htail⟩ := writeSections_prefix (appendName sht s.name) ss
    have hrest := ih (fun s' hs' => hss s' (List.mem_cons_of_mem _ hs')) (appendName sht s.name)
      (by simp only [appendName, List.length_append, List.length_singleton]; omega)
    refine .cons ⟨nameOffset sht, rfl, ?_, newSection_contents (hss s List.mem_cons_self) _⟩ hrest
    change stringAt ((writeSections (appendName sht s.name) ss).1 ++ post) (nameOffset sht) = _
    rw [nameOffset, Nat.mod_eq_of_lt (by omega), htail, appendName, List.append_assoc _ tail post]
    exact stringAt_append sht (tail ++ post) (hss s List.mem_cons_self).name

theorem ElfSection.getdata_of_contents {s : ElfSection} (h : s.contents ≠ []) :
    s.getdata = some s.contents := by
  cases hd : s.getdata with
  | none => simp [ElfSection.contents, hd] at h
  | some d => simp [ElfSection.contents, hd]

end Tables

section ReadBack

def shstrtabSection (table : Bytes) : SecIn := ⟨shstrtabName, table, shtStrtab, 0⟩

/-- The sections of the assembled object: those given, then the string table, with their names in
it. -/
theorem assembleObject_written (eClass : BitVec 8) (eMachine : BitVec 16) {ss : List SecIn}
    (hss : ∀ s ∈ ss, s.Ok) (hfit : 1 + nameBytes ss < 2 ^ 32) :
    ∃ table ≠ [], (assembleObject eClass eMachine ss).shstrndx = (ss.length + 1) % 2 ^ 16 ∧
      List.Forall₂ (Written table) (ss ++ [shstrtabSection table])
        (assembleObject eClass eMachine ss).sections := by
  have hwritten := writeSections_written hss [0] (shstrtabName ++ [0]) (by simpa using hfit.le)
  have hlen := writeSections_length [0] ss
  rw [List.length_singleton] at hlen
  have hzero : (0 : Byte) ∉ shstrtabName := by decide
  have hlast := stringAt_append (writeSections [0] ss).1 [] hzero
  refine ⟨appendName (writeSections [0] ss).1 shstrtabName, by simp [appendName], ?_, ?_⟩
  · change ((writeSections [0] ss).2.length + 1) % 2 ^ 16 = _
    rw [hwritten.length_eq]
  · apply List.rel_append
    · simpa [appendName] using hwritten
    · have hok : (shstrtabSection (appendName (writeSections [0] ss).1 shstrtabName)).Ok :=
        ⟨hzero, fun h => absurd h (by decide : shtStrtab ≠ shtNobits)⟩
      refine .cons ⟨nameOffset (writeSections [0] ss).1, rfl, ?_, newSection_contents hok _⟩ .nil
      rw [nameOffset, Nat.mod_eq_of_lt (by omega)]
      simpa [appendName, shstrtabSection] using hlast

theorem viewOf_finish (hL : L.Faithful) {c : BitVec 8} {m : BitVec 16} {table : Bytes}
    (htable : o.nameTable = some table) {s : SecIn} {e : ElfSection} (h : Written table s e) :
    o.viewOf (L.finish c m e) = s.view := by
  obtain ⟨off, rfl, hname, hcontents⟩ := h
  simp [ElfObject.viewOf, ElfObject.nameOf, htable, hL.shName, hL.shType, hL.contents, SecIn.view, hname,
    hcontents]

theorem nameTable_readBack (hL : L.Faithful) {c : BitVec 8} {m : BitVec 16} {table : Bytes}
    (hne : table ≠ []) {ss : List SecIn} {es : List ElfSection}
    (hes : List.Forall₂ (Written table) (ss ++ [shstrtabSection table]) es)
    (hsections : o.sections = es.map (L.finish c m)) (hndx : o.shstrndx = ss.length + 1) :
    o.nameTable = some table := by
  have hlen : ss.length < es.length := by
    rw [← hes.length_eq]
    simp
  obtain ⟨off, he, -, hdata⟩ : Written table (shstrtabSection table) es[ss.length] := by
    have := hes.get (i := ss.length) (by simp) hlen
    simpa using this
  have hcontents : (L.finish c m es[ss.length]).contents = table := by
    rw [he, hL.contents, ← he, hdata]
    rfl
  have hgetdata := ElfSection.getdata_of_contents (hcontents.symm ▸ hne)
  have htype : (L.finish c m es[ss.length]).shType = shtStrtab := by
    rw [he, hL.shType]
    rfl
  simp [ElfObject.nameTable, hndx, hsections, hlen, htype, hgetdata, hcontents]

/-- The object that is read back has the sections that were given, and the string table, under their
names. -/
theorem write_written (hL : L.Faithful) {eClass : BitVec 8} {eMachine : BitVec 16} {ss : List SecIn}
    (hss : ∀ s ∈ ss, s.Ok) (hfit : 1 + nameBytes ss < 2 ^ 32) (hcount : ss.length + 2 < 0xff00)
    (hwrite : L.write (assembleObject eClass eMachine ss) = some o) :
    ∃ table es, List.Forall₂ (Written table) (ss ++ [shstrtabSection table]) es ∧
      o.nameTable = some table ∧ o.sections = es.map (L.finish eClass eMachine) ∧ o.eType = etRel ∧
      o.eFlags = 0 := by
  obtain ⟨table, hne, hndx, hwritten⟩ := assembleObject_written eClass eMachine hss hfit
  have hlen := hwritten.length_eq
  simp only [List.length_append, List.length_singleton] at hlen
  rw [Nat.mod_eq_of_lt (by omega)] at hndx
  have hback := hL.write (assembleObject eClass eMachine ss) o (by omega) hwrite
  refine ⟨table, _, hwritten, nameTable_readBack hL hne hwritten (by rw [hback]) (by rw [hback]; exact hndx),
    by rw [hback]; rfl, by rw [hback]; rfl, by rw [hback]; rfl⟩

/-- The object that is read back shows the sections that were given, and the string table. -/
theorem views_of_written (hL : L.Faithful) {c : BitVec 8} {m : BitVec 16} {table : Bytes}
    (htable : o.nameTable = some table) {ss : List SecIn} {es : List ElfSection}
    (hwritten : List.Forall₂ (Written table) ss es) (hsections : o.sections = es.map (L.finish c m)) :
    o.views = ss.map SecIn.view := by
  rw [ElfObject.views, hsections, List.map_map]
  clear hsections
  induction hwritten with
  | nil => rfl
  | cons h _ ih => rw [List.map_cons, List.map_cons, ih, Function.comp_apply, viewOf_finish hL htable h]

end ReadBack

section Views

def findView (vs : List SectionView) (name : Bytes) : Option SectionView :=
  vs.find? fun v => v.name = some name

def SectionView.isText (v : SectionView) : Bool :=
  match v.name with
  | some name => textPrefix.isPrefixOf name
  | none => false

def viewPieces (vs : List SectionView) : List Bytes :=
  canonicalFixedSections.map (fun name => (findView vs name).elim [] SectionView.contents) ++
    (vs.filter SectionView.isText).map SectionView.contents

theorem findView_views (o : ElfObject) (name : Bytes) :
    findView o.views name = (o.findNamed name).map o.viewOf := by
  rw [findView, ElfObject.views, List.find?_map, ElfObject.findNamed]
  rfl

theorem filter_isText_views (o : ElfObject) :
    o.views.filter SectionView.isText = o.texts.map o.viewOf := by
  rw [ElfObject.views, List.filter_map, ElfObject.texts]
  rfl

theorem pieces_eq_viewPieces (o : ElfObject) : o.pieces = viewPieces o.views := by
  rw [viewPieces, filter_isText_views, List.map_map, ElfObject.pieces]
  congr 1
  apply List.map_congr_left
  intro name _
  rw [findView_views]
  cases o.findNamed name <;> rfl

def SectionView.keep (v : SectionView) : Option SectionView :=
  let name := v.name.getD []
  if name = shstrtabName then none
  else if name = sigName then none
  else if v.shType = shtNull then none
  else some { v with name := some name }

theorem readAllSections_views (o : ElfObject) :
    o.readAllSections.map SecIn.view = o.views.filterMap SectionView.keep := by
  rw [ElfObject.readAllSections, ElfObject.views, List.map_filterMap, List.filterMap_map]
  congr 1
  funext s
  change Option.map SecIn.view (o.readSection s) =
    if (o.nameOf s).getD [] = shstrtabName then none
    else if (o.nameOf s).getD [] = sigName then none
    else if s.shType = shtNull then none
    else some { o.viewOf s with name := some ((o.nameOf s).getD []) }
  simp only [ElfObject.readSection]
  split_ifs <;> rfl

/-- The signed object can be written: it has fewer than `0xff00` sections, section zero, the signature
and the string table included, and the string table starts its last name below 4 GiB. -/
structure ElfObject.Fits (o : ElfObject) : Prop where
  count : o.readAllSections.length + 3 < 0xff00
  names : 1 + nameBytes o.readAllSections + (sigName.length + 1) < 2 ^ 32

theorem readSection_ok {e : ElfSection} {s : SecIn} (h : o.readSection e = some s) : s.Ok := by
  simp only [ElfObject.readSection] at h
  split_ifs at h
  obtain rfl := Option.some.inj h
  constructor
  · cases hn : o.nameOf e with
    | none => simp
    | some name =>
      obtain ⟨tab, -, htab⟩ := Option.bind_eq_some_iff.mp hn
      exact stringAt_noZero htab
  · intro hn
    have hnobits : e.shType = shtNobits := hn
    simp [ElfSection.contents, ElfSection.getdata, hnobits]

theorem embed_written (hL : L.Faithful) {header : SigHeader} {sigBytes : Bytes} (hfit : o.Fits)
    (hembed : merlinSigEmbed L o header sigBytes = some o') :
    ∃ table es, List.Forall₂ (Written table)
        (o.readAllSections ++ [sigSection header sigBytes] ++ [shstrtabSection table]) es ∧
      o'.nameTable = some table ∧ o'.sections = es.map (L.finish o.eClass o.eMachine) ∧
      o'.eType = etRel ∧ o'.eFlags = 0 := by
  have hok : ∀ s ∈ o.readAllSections ++ [sigSection header sigBytes], s.Ok := by
    intro s hs
    rcases List.mem_append.mp hs with hs | hs
    · obtain ⟨e, -, he⟩ := List.mem_filterMap.mp hs
      exact readSection_ok he
    · rw [List.mem_singleton.mp hs]
      exact ⟨(by decide : (0 : Byte) ∉ sigName), fun h => absurd h (by decide : shtProgbits ≠ shtNobits)⟩
  have hnames : 1 + nameBytes (o.readAllSections ++ [sigSection header sigBytes]) < 2 ^ 32 := by
    have := hfit.names
    simp only [nameBytes, List.map_append, List.sum_append, List.map_singleton, List.sum_singleton] at this ⊢
    rw [show (sigSection header sigBytes).name = sigName from rfl]
    omega
  have hcount := hfit.count
  exact write_written hL hok hnames (by simp; omega) hembed

theorem embed_views (hL : L.Faithful) {header : SigHeader} {sigBytes : Bytes} (hfit : o.Fits)
    (hembed : merlinSigEmbed L o header sigBytes = some o') :
    ∃ table, o'.views = o.views.filterMap SectionView.keep ++
      [(sigSection header sigBytes).view, (shstrtabSection table).view] := by
  obtain ⟨table, es, hwritten, htable, hsections, -, -⟩ := embed_written hL hfit hembed
  refine ⟨table, ?_⟩
  rw [views_of_written hL htable hwritten hsections, List.map_append, List.map_append, readAllSections_views,
    List.append_assoc]
  rfl

end Views

section Keeping
variable {α : Type*} {keep : α → Option α} {p : α → Bool}

/-- A filter that keeps what a search finds, and turns nothing into a find, does not change what is
found. -/
theorem find?_filterMap_keep (hother : ∀ a b, p a = false → keep a = some b → p b = false) :
    ∀ {l : List α}, (∀ a, l.find? p = some a → keep a = some a) → (l.filterMap keep).find? p = l.find? p := by
  intro l hfound
  induction l with
  | nil => rfl
  | cons a l ih =>
    cases hp : p a with
    | true =>
      have hk := hfound a (by simp [hp])
      simp [hk, hp]
    | false =>
      have hrest := ih fun b hb => hfound b (by simpa [hp] using hb)
      cases hk : keep a with
      | none => simpa [hk, hp] using hrest
      | some b => simpa [hk, hp, hother a b hp hk] using hrest

theorem filter_filterMap_keep (hother : ∀ a b, p a = false → keep a = some b → p b = false) {l : List α}
    (hkept : ∀ a ∈ l, p a = true → keep a = some a) : (l.filterMap keep).filter p = l.filter p := by
  induction l with
  | nil => rfl
  | cons a l ih =>
    have hrest := ih fun b hb => hkept b (List.mem_cons_of_mem _ hb)
    cases hp : p a with
    | true =>
      have hk := hkept a List.mem_cons_self hp
      simp [hk, hp, hrest]
    | false =>
      cases hk : keep a with
      | none => simpa [hk, hp] using hrest
      | some b => simpa [hk, hp, hother a b hp hk] using hrest

end Keeping

section RoundTrip

/-- No section that is hashed has the type `SHT_NULL`. -/
structure SignedNotNull (o : ElfObject) : Prop where
  fixed : ∀ name ∈ canonicalFixedSections, ∀ s ∈ o.findNamed name, s.shType ≠ shtNull
  text : ∀ s ∈ o.texts, s.shType ≠ shtNull

/-- The name is neither empty nor one that is dropped on the way. -/
def Kept (name : Bytes) : Prop := name ≠ [] ∧ name ≠ shstrtabName ∧ name ≠ sigName

theorem kept_fixed : ∀ name ∈ canonicalFixedSections, Kept name := by
  unfold Kept
  decide +kernel

theorem keep_self {v : SectionView} {name : Bytes} (hname : v.name = some name)
    (hstr : name ≠ shstrtabName) (hsig : name ≠ sigName) (hnull : v.shType ≠ shtNull) : v.keep = some v := by
  obtain ⟨n, t, c⟩ := v
  obtain rfl : n = some name := hname
  simp only [SectionView.keep, Option.getD_some]
  rw [if_neg hstr, if_neg hsig, if_neg hnull]

theorem keep_spec {v w : SectionView} (h : v.keep = some w) :
    w.name = some (v.name.getD []) ∧ v.name.getD [] ≠ shstrtabName ∧ v.name.getD [] ≠ sigName ∧
      w.shType ≠ shtNull := by
  simp only [SectionView.keep] at h
  split_ifs at h with hstr hsig hnull
  obtain rfl := Option.some.inj h
  exact ⟨rfl, hstr, hsig, hnull⟩

theorem keep_dropped {v : SectionView} (h : v.name = some shstrtabName ∨ v.name = some sigName) :
    v.keep = none := by
  rcases h with h | h <;> simp [SectionView.keep, h]

theorem isText_kept {name : Bytes} (h : textPrefix.isPrefixOf name = true) : Kept name := by
  refine ⟨?_, ?_, ?_⟩ <;> rintro rfl <;> revert h <;> decide

theorem keep_name {v w : SectionView} {name : Bytes} (hk : Kept name) (hv : v.name ≠ some name)
    (h : v.keep = some w) : w.name ≠ some name := by
  rw [(keep_spec h).1]
  intro heq
  cases hn : v.name with
  | none => exact hk.1 (by simpa [hn] using heq.symm)
  | some n => exact hv (by simpa [hn] using heq)

theorem keep_isText {v w : SectionView} (hv : v.isText = false) (h : v.keep = some w) : w.isText = false := by
  have hname := (keep_spec h).1
  cases hn : v.name with
  | none =>
    simp only [SectionView.isText, hname, hn, Option.getD_none]
    decide
  | some n => simpa [SectionView.isText, hname, hn] using hv

/-- Hashing the kept sections is hashing all of them. -/
theorem viewPieces_keep (h : SignedNotNull o) :
    viewPieces (o.views.filterMap SectionView.keep) = viewPieces o.views := by
  simp only [viewPieces]
  congr 1
  · apply List.map_congr_left
    intro name hname
    have hkept := kept_fixed name hname
    have hfind : findView (o.views.filterMap SectionView.keep) name = findView o.views name := by
      apply find?_filterMap_keep
      · intro v w hv hw
        simpa using keep_name hkept (by simpa using hv) hw
      · intro v hv
        change findView o.views name = some v at hv
        have hn : v.name = some name := by simpa using List.find?_some hv
        rw [findView_views] at hv
        obtain ⟨s, hs, rfl⟩ := Option.map_eq_some_iff.mp hv
        exact keep_self hn hkept.2.1 hkept.2.2 (h.fixed name hname s hs)
    rw [hfind]
  · congr 1
    apply filter_filterMap_keep
    · intro v w hv hw
      exact keep_isText hv hw
    · intro v hv htext
      have hmem : v ∈ o.texts.map o.viewOf := by
        rw [← filter_isText_views]
        exact List.mem_filter.mpr ⟨hv, htext⟩
      obtain ⟨s, hs, rfl⟩ := List.mem_map.mp hmem
      cases hn : (o.viewOf s).name with
      | none => simp [SectionView.isText, hn] at htext
      | some name =>
        have hkept : Kept name := isText_kept (by simpa [SectionView.isText, hn] using htext)
        exact keep_self hn hkept.2.1 hkept.2.2 (h.text s hs)

/-- Sections that are not hashed may stand behind the others. -/
theorem viewPieces_append {vs ws : List SectionView}
    (hws : ∀ w ∈ ws, w.isText = false ∧ ∀ name ∈ canonicalFixedSections, w.name ≠ some name) :
    viewPieces (vs ++ ws) = viewPieces vs := by
  have htext : ws.filter SectionView.isText = [] := by
    rw [List.filter_eq_nil_iff]
    intro w hw
    simp [(hws w hw).1]
  have hfind : ∀ name ∈ canonicalFixedSections, findView (vs ++ ws) name = findView vs name := by
    intro name hname
    have hnone : ws.find? (fun v => v.name = some name) = none := by
      rw [List.find?_eq_none]
      intro w hw
      simpa using (hws w hw).2 name hname
    rw [findView, List.find?_append, hnone, Option.or_none]
    rfl
  simp only [viewPieces, List.filter_append, htext, List.append_nil]
  congr 1
  apply List.map_congr_left
  intro name hname
  rw [hfind name hname]

theorem viewPieces_tail (vs : List SectionView) (header : SigHeader) (sigBytes table : Bytes) :
    viewPieces (vs ++ [(sigSection header sigBytes).view, (shstrtabSection table).view]) = viewPieces vs := by
  apply viewPieces_append
  intro w hw
  have hsig : textPrefix.isPrefixOf sigName = false ∧ ∀ name ∈ canonicalFixedSections, sigName ≠ name := by
    decide +kernel
  have hstr : textPrefix.isPrefixOf shstrtabName = false ∧
      ∀ name ∈ canonicalFixedSections, shstrtabName ≠ name := by
    decide +kernel
  rcases List.mem_pair.mp hw with rfl | rfl
  · exact ⟨hsig.1, fun name hname heq => hsig.2 name hname (Option.some.inj heq)⟩
  · exact ⟨hstr.1, fun name hname heq => hstr.2 name hname (Option.some.inj heq)⟩

/-- Reading a signed object gives the sections that were kept before. -/
theorem filterMap_keep_tail (vs : List SectionView) (header : SigHeader) (sigBytes table : Bytes) :
    (vs.filterMap SectionView.keep ++
      [(sigSection header sigBytes).view, (shstrtabSection table).view]).filterMap SectionView.keep =
      vs.filterMap SectionView.keep := by
  have hkeep : ∀ v w, SectionView.keep v = some w → w.keep = some w := by
    intro v w hw
    obtain ⟨hname, hstr, hsig, hnull⟩ := keep_spec hw
    exact keep_self hname hstr hsig hnull
  have hsigView : (sigSection header sigBytes).view.keep = none := keep_dropped (.inr rfl)
  have hstrView : (shstrtabSection table).view.keep = none := keep_dropped (.inl rfl)
  have htwice : (vs.filterMap SectionView.keep).filterMap SectionView.keep = vs.filterMap SectionView.keep := by
    rw [List.filterMap_filterMap]
    congr 1
    funext v
    cases hv : v.keep with
    | none => rfl
    | some w => rw [Option.bind_some, hkeep v w hv]
  simp [hsigView, hstrView, htwice]

theorem named_views (o : ElfObject) (name : Bytes) :
    (o.named name).map o.viewOf = o.views.filter fun v => v.name = some name := by
  rw [ElfObject.views, List.filter_map, ElfObject.named]
  rfl

/-- A signed object has one signature section, the one that was written. -/
theorem embed_named_sig (hL : L.Faithful) {header : SigHeader} {sigBytes : Bytes} (hfit : o.Fits)
    (hembed : merlinSigEmbed L o header sigBytes = some o') :
    (o'.named sigName).map o'.viewOf = [(sigSection header sigBytes).view] := by
  obtain ⟨table, hviews⟩ := embed_views hL hfit hembed
  have hkept : (o.views.filterMap SectionView.keep).filter (fun v => v.name = some sigName) = [] := by
    rw [List.filter_eq_nil_iff]
    intro w hw
    obtain ⟨v, -, hv⟩ := List.mem_filterMap.mp hw
    obtain ⟨hname, -, hsig, -⟩ := keep_spec hv
    rw [hname]
    simpa using hsig
  have hsig : (sigSection header sigBytes).view.name = some sigName := rfl
  have hstr : (shstrtabSection table).view.name = some shstrtabName := rfl
  have hne : shstrtabName ≠ sigName := by decide
  rw [named_views, hviews, List.filter_append, hkept]
  simp [hsig, hstr, hne]

/-- The signature section of a signed object holds the header and the signature. -/
theorem embed_extract (hL : L.Faithful) {keyId : BitVec 32} {total : BitVec 64} {sigBytes : Vector Byte 64}
    (hfit : o.Fits) (hembed : merlinSigEmbed L o (signHeader keyId total) sigBytes.toList = some o') :
    merlinSigExtract o' sigEd25519Len = .found (signHeader keyId total) sigBytes.toList := by
  obtain ⟨s, hs, hview⟩ := List.map_eq_singleton_iff.mp (embed_named_sig hL hfit hembed)
  have hfind : o'.findNamed sigName = some s := by rw [findNamed_eq_head?, hs, List.head?_cons]
  have hcontents : s.contents = SigHeader.codec.put (signHeader keyId total) ++ sigBytes.toList :=
    congrArg SectionView.contents hview
  have hlen : s.contents.length = sigHeaderSize + 64 := by
    rw [hcontents, List.length_append, SigHeader.codec.length_put, SigHeader.codec_width, Vector.length_toList]
  have hdata := ElfSection.getdata_of_contents (s := s) (List.ne_nil_of_length_pos (by omega))
  have hget : SigHeader.codec.get s.contents = signHeader keyId total := by
    rw [hcontents, SigHeader.codec.get_put]
  have hdrop : s.contents.drop sigHeaderSize = sigBytes.toList := by
    rw [hcontents, ← SigHeader.codec_width, Codec.drop_put]
  simp only [merlinSigExtract, hfind, hdata, hget, hlen, hdrop]
  simp [signHeader, sigHeaderSize, sigEd25519Len]

theorem embed_pieces (hL : L.Faithful) {header : SigHeader} {sigBytes : Bytes} (hfit : o.Fits)
    (h : SignedNotNull o) (hembed : merlinSigEmbed L o header sigBytes = some o') : o'.pieces = o.pieces := by
  obtain ⟨table, hviews⟩ := embed_views hL hfit hembed
  rw [pieces_eq_viewPieces, hviews, viewPieces_tail, viewPieces_keep h, ← pieces_eq_viewPieces]

theorem embed_readAllSections (hL : L.Faithful) {header : SigHeader} {sigBytes : Bytes} (hfit : o.Fits)
    (hembed : merlinSigEmbed L o header sigBytes = some o') :
    o'.readAllSections.map SecIn.view = o.readAllSections.map SecIn.view := by
  obtain ⟨table, hviews⟩ := embed_views hL hfit hembed
  rw [readAllSections_views, hviews, filterMap_keep_tail, readAllSections_views]

/-- A second signature can be written where the first could. -/
theorem embed_fits (hL : L.Faithful) {header : SigHeader} {sigBytes : Bytes} (hfit : o.Fits)
    (hembed : merlinSigEmbed L o header sigBytes = some o') : o'.Fits := by
  have hread := embed_readAllSections hL hfit hembed
  have hlength := congrArg List.length hread
  have hnames := congrArg (fun vs => (vs.map fun v : SectionView => (v.name.getD []).length + 1).sum) hread
  simp only [List.length_map] at hlength
  simp only [List.map_map] at hnames
  constructor
  · rw [hlength]
    exact hfit.count
  · have hbytes : nameBytes o'.readAllSections = nameBytes o.readAllSections := hnames
    rw [hbytes]
    exact hfit.names

/-- Signing twice hashes what signing once hashed. -/
theorem embed_embed_pieces (hL : L.Faithful) {header header' : SigHeader} {sigBytes sigBytes' : Bytes}
    {o'' : ElfObject} (hfit : o.Fits) (h : SignedNotNull o)
    (hembed : merlinSigEmbed L o header sigBytes = some o')
    (hembed' : merlinSigEmbed L o' header' sigBytes' = some o'') : o''.pieces = o.pieces := by
  obtain ⟨table, hviews⟩ := embed_views hL hfit hembed
  obtain ⟨table', hviews'⟩ := embed_views hL (embed_fits hL hfit hembed) hembed'
  rw [pieces_eq_viewPieces, hviews', viewPieces_tail, hviews, filterMap_keep_tail, viewPieces_keep h,
    ← pieces_eq_viewPieces]

theorem hash_of_pieces (h : o'.pieces = o.pieces) :
    merlinSigHashSignedRegion C o' = merlinSigHashSignedRegion C o := by
  simp only [merlinSigHashSignedRegion, ElfObject.signedTotal, ElfObject.signedRegion, h]

theorem cmdVerify_of_extract {header : SigHeader} {sigBytes : Bytes}
    (hx : merlinSigExtract o sigEd25519Len = .found header sigBytes) (halgo : header.algo = sigAlgoEd25519)
    (htotal : o.signedTotal = header.signedBlobLen) (pk : C.scheme.Pub) (stale : Vector Byte 64) :
    cmdVerify C (some pk) stale o =
      C.scheme.verify pk (sigBuffer sigBytes stale) (C.sha256 o.signedRegion) := by
  rw [cmdVerify, hx]
  change (if header.algo ≠ sigAlgoEd25519 then false
    else if o.signedTotal ≠ header.signedBlobLen then false else _) = _
  rw [if_neg (not_not.mpr halgo), if_neg (not_not.mpr htotal)]
  rfl

end RoundTrip

/-- A signed object hashes as before, gives back its header and signature, and is accepted under the
matching key; signing it again leaves one signature and the same digest. -/
theorem cmdSign_verifies (C : SignCrypto) (L : Libelf) (hcorrect : C.scheme.Correct) (hL : L.Faithful)
    (sk : C.scheme.Priv) (keyId : BitVec 32) (o o' : ElfObject) (hfit : o.Fits) (hnull : SignedNotNull o)
    (hsign : cmdSign C L (some sk) keyId o = some o') :
    merlinSigHashSignedRegion C o' = merlinSigHashSignedRegion C o ∧
      merlinSigExtract o' sigEd25519Len = .found (signHeader keyId o.signedTotal)
        (C.scheme.sign sk (C.sha256 o.signedRegion)).toList ∧
      (∀ stale, cmdVerify C (some (C.scheme.pubOf sk)) stale o' = true) ∧
      ∀ sk' keyId' o'', cmdSign C L (some sk') keyId' o' = some o'' →
        (o''.named sigName).length = 1 ∧ merlinSigHashSignedRegion C o'' = merlinSigHashSignedRegion C o := by
  have hembed : merlinSigEmbed L o (signHeader keyId o.signedTotal)
      (C.scheme.sign sk (C.sha256 o.signedRegion)).toList = some o' := hsign
  have hsame := hash_of_pieces (C := C) (embed_pieces hL hfit hnull hembed)
  have hx := embed_extract hL hfit hembed
  obtain ⟨hdigest, htotal⟩ := Prod.mk.inj hsame
  refine ⟨hsame, hx, ?_, ?_⟩
  · intro stale
    rw [cmdVerify_of_extract hx rfl htotal, sigBuffer_full (by simp), hdigest]
    exact hcorrect sk _
  · intro sk' keyId' o'' hsign'
    have hembed' : merlinSigEmbed L o' (signHeader keyId' o'.signedTotal)
        (C.scheme.sign sk' (C.sha256 o'.signedRegion)).toList = some o'' := hsign'
    constructor
    · have hlength := congrArg List.length (embed_named_sig hL (embed_fits hL hfit hembed) hembed')
      rwa [List.length_map] at hlength
    · exact hash_of_pieces (embed_embed_pieces hL hfit hnull hembed hembed')

section Samples

/-- The entry sizes libelf knows for sections of 64-bit objects: symbol tables and `SHT_RELA`,
`SHT_DYNAMIC` and `SHT_REL`, `SHT_HASH`, `SHT_GROUP` and `SHT_SYMTAB_SHNDX`. -/
def elf64Entsize (shType : BitVec 32) : ℕ :=
  match shType.toNat with
  | 2 | 4 | 11 => 24
  | 6 | 9 => 16
  | 5 | 17 | 18 => 4
  | _ => 0

/-- A writer that keeps everything, aligns a section to its data and fills in the entry sizes. -/
def plainLibelf : Libelf :=
  let fill (s : ElfSection) : ElfSection :=
    { s with
      shAddralign := max 1 s.shAddralign
      shEntsize := if elf64Entsize s.shType = 0 then s.shEntsize else elf64Entsize s.shType }
  { write := fun img => some { img with sections := img.sections.map fill }
    finish := fun _ _ => fill }

theorem plainLibelf_faithful : plainLibelf.Faithful where
  write _ _ _ h := (Option.some.inj h).symm
  shName _ _ _ _ := rfl
  shType _ _ _ _ := rfl
  shFlags _ _ _ _ := rfl
  shSize _ _ _ _ := rfl
  shLink _ _ _ _ := rfl
  shInfo _ _ _ _ := rfl
  contents _ _ _ _ := rfl

/-- A scheme with one key, in which the signature spells out the number of signed bytes. -/
def openSignCrypto : SignCrypto where
  Digest := Bytes
  sha256 := id
  scheme := .transparent fun (_ : Unit) m => Vector.replicate 64 (BitVec.ofNat 8 m.length)

theorem sampleObject_verifies :
    ∃ o', cmdSign openSignCrypto plainLibelf (some ()) 7 (sampleObject 243 [1] [2]) = some o' ∧
      cmdVerify openSignCrypto (some ()) (Vector.replicate 64 5) o' = true := by
  obtain ⟨o', hsign⟩ : ∃ o', cmdSign openSignCrypto plainLibelf (some ()) 7 (sampleObject 243 [1] [2]) = some o' :=
    ⟨_, rfl⟩
  have hverifies := cmdSign_verifies openSignCrypto plainLibelf (SignatureScheme.transparent_correct _)
    plainLibelf_faithful () 7 (sampleObject 243 [1] [2]) o' ⟨by decide +kernel, by decide +kernel⟩
    ⟨by decide +kernel, by decide +kernel⟩ hsign
  exact ⟨o', hsign, hverifies.2.2.1 _⟩

end Samples

section LongNames
variable {long : Bytes}

theorem stringAt_long (hlong : 0 ∉ long) (rest : Bytes) {k : ℕ} (hk : k ≤ long.length) :
    stringAt (0 :: (long ++ 0 :: rest)) (k + 1) = some (long.drop k) := by
  have hdrop : (0 : Byte) ∉ long.drop k := fun h => hlong (List.mem_of_mem_drop h)
  have hat := stringAt_append (0 :: long.take k) rest hdrop
  have hsplit : 0 :: List.take k long ++ List.drop k long ++ [0] ++ rest = 0 :: (long ++ 0 :: rest) := by simp
  rw [hsplit] at hat
  simpa [hk] using hat

/-- Names that do not start with a dot are not hashed. -/
theorem signedRegion_undotted
    (h : ∀ s ∈ o.sections, ∀ name, o.nameOf s = some name → name.head? ≠ some 46) : o.signedRegion = [] := by
  have hfixed : ∀ name ∈ canonicalFixedSections, name.head? = some 46 := by decide +kernel
  have hnone : ∀ name ∈ canonicalFixedSections, o.findNamed name = none := by
    intro name hname
    rw [ElfObject.findNamed, List.find?_eq_none]
    intro s hs heq
    exact h s hs name (by simpa using heq) (hfixed name hname)
  have htext : o.sections.filter o.isText = [] := by
    rw [List.filter_eq_nil_iff]
    intro s hs htext
    cases hn : o.nameOf s with
    | none => simp [ElfObject.isText, hn] at htext
    | some name =>
      apply h s hs name hn
      obtain ⟨tail, rfl⟩ : textPrefix <+: name := by simpa [ElfObject.isText, hn] using htext
      rw [List.head?_append, show textPrefix.head? = some 46 by decide, Option.some_or]
  simp only [ElfObject.signedRegion, ElfObject.pieces, htext, List.map_nil, List.append_nil,
    List.flatten_eq_nil_iff, List.mem_map]
  rintro piece ⟨name, hname, rfl⟩
  rw [hnone name hname, Option.elim_none]

def bareSection (shName : ℕ) (shType : BitVec 32) (data : Bytes) : ElfSection where
  shName := shName
  shType := shType
  shFlags := 0
  shSize := data.length
  shLink := 0
  shInfo := 0
  shAddralign := 1
  shEntsize := 0
  data := some data

def longTable (long : Bytes) : Bytes :=
  [0] ++ cstr ".merlin.meta" ++ [0] ++ shstrtabName ++ [0] ++ long ++ [0]

def longNamed (long : Bytes) : ElfObject where
  eClass := 2
  eType := etRel
  eMachine := 243
  eFlags := 0
  shstrndx := 3
  sections := [bareSection 24 shtProgbits [9], bareSection 1 shtProgbits [1],
    bareSection 14 shtStrtab (longTable long)]

theorem readSection_of_name {s : ElfSection} {name : Bytes} (hname : o.nameOf s = some name)
    (hstr : name ≠ shstrtabName) (hsig : name ≠ sigName) (hnull : s.shType ≠ shtNull) :
    o.readSection s = some ⟨name, s.contents, s.shType, s.shFlags⟩ := by
  simp only [ElfObject.readSection, hname, Option.getD_some]
  rw [if_neg hstr, if_neg hsig, if_neg hnull]

theorem longNamed_names (hlong : 0 ∉ long) :
    (longNamed long).nameOf (bareSection 24 shtProgbits [9]) = some long ∧
      (longNamed long).nameOf (bareSection 1 shtProgbits [1]) = some (cstr ".merlin.meta") ∧
      (longNamed long).nameOf (bareSection 14 shtStrtab (longTable long)) = some shstrtabName := by
  have hname := stringAt_append ([0] ++ cstr ".merlin.meta" ++ [0] ++ shstrtabName ++ [0]) [] hlong
  have hmeta := stringAt_append [0] (shstrtabName ++ [0] ++ long ++ [0])
    (by decide : (0 : Byte) ∉ cstr ".merlin.meta")
  have hself := stringAt_append ([0] ++ cstr ".merlin.meta" ++ [0]) (long ++ [0])
    (by decide : (0 : Byte) ∉ shstrtabName)
  simp only [← List.append_assoc, List.append_nil] at hname hmeta hself
  exact ⟨hname, hmeta, hself⟩

theorem longNamed_readAllSections (hlong : 0 ∉ long) (hstr : long ≠ shstrtabName) (hsig : long ≠ sigName) :
    (longNamed long).readAllSections =
      [⟨long, [9], shtProgbits, 0⟩, ⟨cstr ".merlin.meta", [1], shtProgbits, 0⟩] := by
  obtain ⟨hname, hmeta, hself⟩ := longNamed_names hlong
  have hprogbits : shtProgbits ≠ shtNull := by decide
  have hfirst := readSection_of_name hname hstr hsig hprogbits
  have hsecond := readSection_of_name hmeta (by decide) (by decide) hprogbits
  have hthird : (longNamed long).readSection (bareSection 14 shtStrtab (longTable long)) = none := by
    simp [ElfObject.readSection, hself]
  rw [ElfObject.readAllSections, show (longNamed long).sections = [bareSection 24 shtProgbits [9],
    bareSection 1 shtProgbits [1], bareSection 14 shtStrtab (longTable long)] from rfl]
  rw [List.filterMap_cons_some hfirst, List.filterMap_cons_some hsecond, List.filterMap_cons_none hthird]
  rfl

theorem longNamed_signedNotNull (long : Bytes) : SignedNotNull (longNamed long) := by
  have htype : ∀ s ∈ (longNamed long).sections, s.shType ≠ shtNull := by
    intro s hs
    have hprogbits : shtProgbits ≠ shtNull := by decide
    have hstrtab : shtStrtab ≠ shtNull := by decide
    simp only [longNamed, List.mem_cons, List.not_mem_nil, or_false] at hs
    rcases hs with rfl | rfl | rfl
    · exact hprogbits
    · exact hprogbits
    · exact hstrtab
  constructor
  · intro name _ s hs
    exact htype s (List.mem_of_find?_eq_some hs)
  · intro s hs
    exact htype s (List.mem_of_mem_filter hs)

theorem longNamed_signedRegion (hlong : 0 ∉ long) (hmeta : long ≠ cstr ".merlin.meta") :
    (longNamed long).signedRegion ≠ [] := by
  obtain ⟨hname, hname', -⟩ := longNamed_names hlong
  have hfind : (longNamed long).findNamed (cstr ".merlin.meta") = some (bareSection 1 shtProgbits [1]) := by
    rw [ElfObject.findNamed, show (longNamed long).sections = [bareSection 24 shtProgbits [9],
      bareSection 1 shtProgbits [1], bareSection 14 shtStrtab (longTable long)] from rfl]
    rw [List.find?_cons_of_neg (by rw [hname]; simpa using hmeta),
      List.find?_cons_of_pos (by rw [hname']; simp)]
  have hpiece : [1] ∈ (longNamed long).pieces := by
    apply List.mem_append_left
    refine List.mem_map.mpr ⟨cstr ".merlin.meta", by decide, ?_⟩
    rw [hfind]
    rfl
  intro hnil
  have := List.flatten_eq_nil_iff.mp hnil _ hpiece
  cases this

/-- An offset into the long name leads to a part of it. -/
theorem stringAt_undotted (hlong : ∀ b ∈ long, b = 97) {rest name : Bytes} {off : ℕ} (hoff : off ≤ long.length + 1)
    (h : stringAt (0 :: (long ++ 0 :: rest)) off = some name) : name.head? ≠ some 46 := by
  have hzero : 0 ∉ long := fun h => absurd (hlong 0 h) (by decide)
  cases off with
  | zero =>
    obtain rfl : [] = name := by simpa [stringAt] using h
    simp
  | succ k =>
    rw [stringAt_long hzero rest (by omega)] at h
    obtain rfl := Option.some.inj h
    intro hhead
    have hmem := List.mem_of_mem_drop (List.mem_of_mem_head? hhead)
    exact absurd (hlong _ hmem) (by decide)

/-- The offsets behind a name of 4 GiB start again at zero. -/
theorem longNamed_offsets (hlen : long.length + 2 = 2 ^ 32) :
    nameOffset (appendName [0] long) = 0 ∧
      nameOffset (appendName (appendName [0] long) (cstr ".merlin.meta")) = 13 ∧
      nameOffset (appendName (appendName (appendName [0] long) (cstr ".merlin.meta")) sigName) = 25 := by
  have hmeta : (cstr ".merlin.meta").length = 12 := by decide
  have hsig : sigName.length = 11 := by decide
  simp only [nameOffset, appendName, List.length_append, List.length_singleton, hmeta, hsig]
  omega

/-- Behind a name that fills the first 4 GiB of the string table every offset points into it. -/
theorem signedRegion_longNamed {header : SigHeader} {sigBytes : Bytes} (hlong : ∀ b ∈ long, b = 97)
    (hlen : long.length + 2 = 2 ^ 32)
    (hembed : merlinSigEmbed plainLibelf (longNamed long) header sigBytes = some o) : o.signedRegion = [] := by
  have hzero : 0 ∉ long := fun h => absurd (hlong 0 h) (by decide)
  have hne : ∀ name : Bytes, name.length < 100 → long ≠ name := by
    rintro name hname rfl
    omega
  have hread := longNamed_readAllSections hzero (hne _ (by decide)) (hne _ (by decide))
  obtain ⟨hmeta, hsig, hstr⟩ := longNamed_offsets hlen
  rw [merlinSigEmbed, hread] at hembed
  have heq := (Option.some.inj hembed).symm
  have htable : o.nameTable = some (appendName (appendName (appendName (appendName [0] long)
      (cstr ".merlin.meta")) sigName) shstrtabName) := by
    rw [heq]
    rfl
  have hsplit : appendName (appendName (appendName (appendName [0] long) (cstr ".merlin.meta")) sigName)
      shstrtabName =
      0 :: (long ++ 0 :: (cstr ".merlin.meta" ++ [0] ++ sigName ++ [0] ++ shstrtabName ++ [0])) := by
    simp [appendName]
  apply signedRegion_undotted
  intro s hs name hname
  rw [ElfObject.nameOf, htable, hsplit, Option.bind_some] at hname
  apply stringAt_undotted hlong _ hname
  rw [heq] at hs
  change s ∈ List.map (plainLibelf.finish 2 243) [newSection _ (nameOffset [0]),
    newSection _ (nameOffset (appendName [0] long)),
    newSection _ (nameOffset (appendName (appendName [0] long) (cstr ".merlin.meta"))),
    newSection _ (nameOffset (appendName (appendName (appendName [0] long) (cstr ".merlin.meta")) sigName))] at hs
  rw [hmeta, hsig, hstr] at hs
  simp only [List.map_cons, List.map_nil, List.mem_cons, List.not_mem_nil, or_false] at hs
  rcases hs with rfl | rfl | rfl | rfl
  · exact (by omega : 1 ≤ long.length + 1)
  · exact (by omega : 0 ≤ long.length + 1)
  · exact (by omega : 13 ≤ long.length + 1)
  · exact (by omega : 25 ≤ long.length + 1)

/-- The section behind a name of almost 4 GiB loses its own, and the digest with it. -/
theorem longNamed_digest (hlong : ∀ b ∈ long, b = 97) (hlen : long.length + 2 = 2 ^ 32) :
    (longNamed long).readAllSections.length + 3 < 0xff00 ∧
      ∃ o', cmdSign openSignCrypto plainLibelf (some ()) 7 (longNamed long) = some o' ∧
        merlinSigHashSignedRegion openSignCrypto o' ≠ merlinSigHashSignedRegion openSignCrypto (longNamed long) := by
  have hzero : 0 ∉ long := fun h => absurd (hlong 0 h) (by decide)
  have hne : ∀ name : Bytes, name.length < 100 → long ≠ name := by
    rintro name hname rfl
    omega
  have hread := longNamed_readAllSections hzero (hne _ (by decide)) (hne _ (by decide))
  obtain ⟨o', hsign⟩ : ∃ o', cmdSign openSignCrypto plainLibelf (some ()) 7 (longNamed long) = some o' := ⟨_, rfl⟩
  refine ⟨?_, o', hsign, ?_⟩
  · rw [hread, List.length_cons, List.length_cons, List.length_nil]
    omega
  · intro heq
    have hdigest : o'.signedRegion = (longNamed long).signedRegion := (Prod.mk.inj heq).1
    apply longNamed_signedRegion hzero (hne _ (by decide))
    rw [← hdigest]
    exact signedRegion_longNamed hlong hlen hsign

def longName : Bytes := List.replicate (2 ^ 32 - 2) 97

theorem longName_bytes : ∀ b ∈ longName, b = 97 := fun _ hb => List.eq_of_mem_replicate hb

theorem longName_length : longName.length + 2 = 2 ^ 32 := by
  rw [longName, List.length_replicate]
  norm_num

theorem longName_digest_changes :
    openSignCrypto.scheme.Correct ∧ plainLibelf.Faithful ∧
      (longNamed longName).readAllSections.length + 3 < 0xff00 ∧ SignedNotNull (longNamed longName) ∧
      ∃ o', cmdSign openSignCrypto plainLibelf (some ()) 7 (longNamed longName) = some o' ∧
        merlinSigHashSignedRegion openSignCrypto o' ≠
          merlinSigHashSignedRegion openSignCrypto (longNamed longName) := by
  have hdigest := longNamed_digest longName_bytes longName_length
  exact ⟨SignatureScheme.transparent_correct _, plainLibelf_faithful, hdigest.1,
    longNamed_signedNotNull longName, hdigest.2⟩

end LongNames

end MerlinV

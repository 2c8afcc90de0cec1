import Inconcretes.Kzh15.Grouping

/-!
# Where the labels are

The lists of the runnables and the readers and writers of the labels are two records of the same mapping.
Every step that maps a label extends both (`Recorded.addReader`, `Recorded.addWriter`), and labels that are
never mapped can be erased. So a finished instance is well formed: each of its labels has the readers and
writers of its kind, and is in the corresponding lists of just these runnables (`yields_wellFormed`).
-/

namespace KZH15

open Drawing

variable {D : Type}

/-! ## Records -/

/-- The list in which a label stands for its readers. -/
def Label.readAccess (l : Label) : Access :=
  match l.type, l.mtype with
  | .readWrite, .interTask => .rwInterTaskRead
  | .readWrite, _ => .rwIntraTaskRead
  | _, _ => .roRead

/-- The list in which a label stands for its writers. -/
def Label.writeAccess (l : Label) : Access :=
  match l.type, l.mtype with
  | .readWrite, .interTask => .rwInterTaskWritten
  | .readWrite, _ => .rwIntraTaskWritten
  | _, _ => .woWritten

theorem Label.access_of_intraTask {l : Label} (htype : l.type = .readWrite)
    (hmtype : l.mtype ≠ .interTask) :
    l.readAccess = .rwIntraTaskRead ∧ l.writeAccess = .rwIntraTaskWritten := by
  rw [Label.readAccess, Label.writeAccess, htype]
  cases hm : l.mtype with
  | intraTaskFwd => exact ⟨rfl, rfl⟩
  | intraTaskBwd => exact ⟨rfl, rfl⟩
  | interTask => exact absurd hm hmtype

/-- The runnables that a label records, with the lists it belongs in. -/
def Label.sites (l : Label) : List (ℕ × Access) :=
  l.readers.map (·, l.readAccess) ++ l.writers.map (·, l.writeAccess)

/-- What the labels record. -/
def records (labels : List Label) : List (ℤ × ℕ × Access) :=
  labels.flatMap fun l => l.sites.map (l.id, ·)

theorem records_cons (l : Label) (labels : List Label) :
    records (l :: labels) = l.sites.map (l.id, ·) ++ records labels := rfl

/-- A list of the runnable at `ptr`. -/
def held (runnables : List (Runnable D)) (ptr : ℕ) (a : Access) : List ℤ :=
  (runnables[ptr]?).elim [] fun r => r.labels a

theorem lt_of_mem_held {runnables : List (Runnable D)} {ptr : ℕ} {a : Access} {lid : ℤ}
    (h : lid ∈ held runnables ptr a) : ptr < runnables.length := by
  by_contra hge
  rw [held, List.getElem?_eq_none (Nat.le_of_not_lt hge)] at h
  exact List.not_mem_nil h

/-- The lists of the runnables are what the labels record. -/
def Recorded (runnables : List (Runnable D)) (labels : List Label) : Prop :=
  ∀ ptr a lid, (held runnables ptr a).count lid = (records labels).count (lid, ptr, a)

theorem count_held_addLabel {runnables : List (Runnable D)} {ptr : ℕ} (hptr : ptr < runnables.length)
    (lid : ℤ) (a : Access) (ptr' : ℕ) (a' : Access) (lid' : ℤ) :
    (held (addLabel runnables ptr lid a) ptr' a').count lid'
      = (held runnables ptr' a').count lid' + [(lid, ptr, a)].count (lid', ptr', a') := by
  rw [held, held, addLabel, List.getElem?_modify]
  by_cases heq : ptr = ptr'
  · subst heq
    rw [List.getElem?_eq_getElem hptr]
    simp only [Option.map_eq_map, Option.map_some, if_true, Option.elim_some, LabelLists.labels_push,
      List.count_append]
    by_cases ha : a = a'
    · simp [ha, List.count_cons, beq_iff_eq]
    · simp [ha]
  · simp [heq]

theorem sites_addReader (l : Label) (ptr : ℕ) :
    (l.addReader ptr).sites.Perm ((ptr, l.readAccess) :: l.sites) := by
  have hsites : (l.addReader ptr).sites = l.readers.map (·, l.readAccess)
      ++ (ptr, l.readAccess) :: l.writers.map (·, l.writeAccess) := by
    show (l.readers ++ [ptr]).map (·, l.readAccess) ++ l.writers.map (·, l.writeAccess) = _
    simp
  rw [hsites]
  exact List.perm_middle

theorem sites_addWriter (l : Label) (ptr : ℕ) :
    (l.addWriter ptr).sites.Perm ((ptr, l.writeAccess) :: l.sites) := by
  have hsites : (l.addWriter ptr).sites = l.sites ++ [(ptr, l.writeAccess)] := by
    show l.readers.map (·, l.readAccess) ++ (l.writers ++ [ptr]).map (·, l.writeAccess) = _
    simp [Label.sites]
  rw [hsites]
  exact List.perm_append_singleton _ _

/-- A site added to a label is recorded once. -/
theorem perm_records {l l' : Label} {s : ℕ × Access} (hid : l'.id = l.id)
    (hsites : l'.sites.Perm (s :: l.sites)) (done rest : List Label) :
    (records (done ++ l' :: rest)).Perm ((l.id, s) :: records (done ++ l :: rest)) := by
  simp only [records, List.flatMap_append, List.flatMap_cons, hid]
  refine ((hsites.map (l.id, ·)).append_right _).append_left _ |>.trans ?_
  rw [List.map_cons, List.cons_append]
  exact List.perm_middle

theorem Recorded.add {runnables : List (Runnable D)} {done : List Label} {l l' : Label}
    {rest : List Label} (h : Recorded runnables (done ++ l :: rest)) {ptr : ℕ} {a : Access}
    (hptr : ptr < runnables.length) (hsites : l'.sites.Perm ((ptr, a) :: l.sites)) (hid : l'.id = l.id) :
    Recorded (addLabel runnables ptr l.id a) (done ++ l' :: rest) := by
  intro ptr' a' lid'
  rw [count_held_addLabel hptr, (perm_records hid hsites done rest).count_eq, h, ← List.count_append]
  exact (List.perm_append_singleton _ _).count_eq _

theorem length_addLabel (runnables : List (Runnable D)) (ptr : ℕ) (lid : ℤ) (a : Access) :
    (addLabel runnables ptr lid a).length = runnables.length := List.length_modify ..

theorem Recorded.addWriterReader {runnables : List (Runnable D)} {done : List Label} {l : Label}
    {rest : List Label} (h : Recorded runnables (done ++ l :: rest)) {w r : ℕ}
    (hw : w < runnables.length) (hr : r < runnables.length) :
    Recorded (addLabel (addLabel runnables w l.id l.writeAccess) r l.id l.readAccess)
      (done ++ (l.addWriter w).addReader r :: rest) :=
  (h.add hw (sites_addWriter l w) rfl).add (by rwa [length_addLabel]) (sites_addReader _ r) rfl

theorem Recorded.addReaderWriter {runnables : List (Runnable D)} {done : List Label} {l : Label}
    {rest : List Label} (h : Recorded runnables (done ++ l :: rest)) {r w : ℕ}
    (hr : r < runnables.length) (hw : w < runnables.length) :
    Recorded (addLabel (addLabel runnables r l.id l.readAccess) w l.id l.writeAccess)
      (done ++ (l.addReader r).addWriter w :: rest) :=
  (h.add hr (sites_addReader l r) rfl).add (by rwa [length_addLabel]) (sites_addWriter _ w) rfl

/-! ## What stays -/

theorem skeleton_addLabel (runnables : List (Runnable D)) (ptr : ℕ) (lid : ℤ) (a : Access) :
    skeleton (addLabel runnables ptr lid a) = skeleton runnables := by
  refine List.ext_getElem? fun i => ?_
  rw [skeleton, skeleton, addLabel, List.getElem?_map, List.getElem?_map, List.getElem?_modify]
  cases runnables[i]? with
  | none => rfl
  | some r => by_cases h : ptr = i <;> simp [h]

theorem length_of_skeleton {runnables runnables' : List (Runnable D)}
    (h : skeleton runnables' = skeleton runnables) : runnables'.length = runnables.length := by
  simpa [skeleton] using congrArg List.length h

theorem numbered_of_skeleton {runnables runnables' : List (Runnable D)}
    (h : skeleton runnables' = skeleton runnables) (hnumbered : Numbered runnables) :
    Numbered runnables' := by
  have hids := congrArg (List.map Prod.fst) h
  simp only [skeleton, List.map_map] at hids
  rw [Numbered, length_of_skeleton h]
  exact hids.trans hnumbered

theorem periods_of_skeleton {runnables runnables' : List (Runnable D)}
    (h : skeleton runnables' = skeleton runnables) :
    runnables'.map (·.periodMs) = runnables.map (·.periodMs) := by
  have hperiods := congrArg (List.map Prod.snd) h
  simp only [skeleton, List.map_map] at hperiods
  exact hperiods

theorem idAt_of_numbered {runnables : List (Runnable D)} (h : Numbered runnables) {ptr : ℕ}
    (hptr : ptr < runnables.length) : idAt runnables ptr = ptr := by
  have hid := congrArg (·[ptr]?) h
  rw [List.getElem?_map, List.getElem?_map, List.getElem?_range hptr, List.getElem?_eq_getElem hptr] at hid
  rw [idAt, List.getElem?_eq_getElem hptr]
  exact Option.some.inj hid

/-! ## Mapped labels -/

/-- A label that is mapped has the readers and writers of its kind. -/
inductive Label.Placed (tasks : List (Task D)) (l : Label) : Prop
  | readOnly (htype : l.type = .readOnly) (r : ℕ) (hreaders : l.readers = [r]) (hwriters : l.writers = [])
  | writeOnly (htype : l.type = .writeOnly) (w : ℕ) (hreaders : l.readers = [])
      (hwriters : l.writers = [w])
  | intraTask (htype : l.type = .readWrite) (hmtype : l.mtype ≠ .interTask) (r w : ℕ)
      (hreaders : l.readers = [r]) (hwriters : l.writers = [w])
      (horder : if l.mtype = .intraTaskFwd then w < r else r < w) (t : Task D) (ht : t ∈ tasks)
      (hr : r ∈ t.runnables) (hw : w ∈ t.runnables)
  | interTask (htype : l.type = .readWrite) (hmtype : l.mtype = .interTask) (r w : ℕ)
      (hreaders : l.readers = [r]) (hwriters : l.writers = [w]) (hne : r ≠ w)

/-- A label without readers and writers. -/
def Label.Unplaced (l : Label) : Prop := l.readers = [] ∧ l.writers = []

theorem Label.Unplaced.readers_addReader {l : Label} (h : l.Unplaced) (r : ℕ) :
    (l.addReader r).readers = [r] := by
  rw [addReader, h.1]
  rfl

theorem Label.Unplaced.writers_addWriter {l : Label} (h : l.Unplaced) (w : ℕ) :
    (l.addWriter w).writers = [w] := by
  rw [addWriter, h.2]
  rfl

/-- What `map_labels_to_runnables` makes of a label. -/
def Label.MappedTo (tasks : List (Task D)) (l l' : Label) : Prop :=
  l'.id = l.id ∧ if l.IsInterTask then l' = l else l'.Placed tasks ∧ ¬l'.IsInterTask

/-- The swap puts two runnables into the order of their numbers. -/
theorem exists_ordered {runnables : List (Runnable D)} (hnumbered : Numbered runnables) {ptrs : List ℕ}
    (hptrs : ∀ ptr ∈ ptrs, ptr < runnables.length) {r1 r2 : ℕ} (hr1 : r1 ∈ ptrs) (hr2 : r2 ∈ ptrs)
    (hne : r1 ≠ r2) :
    ∃ lo hi, (if idAt runnables r2 < idAt runnables r1 then (r2, r1) else (r1, r2)) = (lo, hi)
      ∧ lo ∈ ptrs ∧ hi ∈ ptrs ∧ lo < hi := by
  rw [idAt_of_numbered hnumbered (hptrs r1 hr1), idAt_of_numbered hnumbered (hptrs r2 hr2)]
  rcases lt_or_gt_of_ne hne with hlt | hlt
  · exact ⟨r1, r2, if_neg (not_lt.mpr (Nat.cast_le.mpr hlt.le)), hr1, hr2, hlt⟩
  · exact ⟨r2, r1, if_pos (Nat.cast_lt.mpr hlt), hr2, hr1, hlt⟩

theorem Label.Placed.mappedTo {tasks : List (Task D)} {l l' : Label} (h : l'.Placed tasks)
    (hinter : ¬l.IsInterTask) (hid : l'.id = l.id) (htype : l'.type = l.type)
    (hmtype : l'.mtype = l.mtype) : l.MappedTo tasks l' := by
  refine ⟨hid, ?_⟩
  rw [if_neg hinter]
  refine ⟨h, ?_⟩
  rwa [Label.IsInterTask, htype, hmtype]

/-- The two sides of a label within a task are added in the order of its kind. -/
theorem mapped_addOrdered {tasks : List (Task D)} {runnables : List (Runnable D)} {labels : List Label}
    {l : Label} {rest : List Label} (hrecorded : Recorded runnables (labels ++ l :: rest))
    (hunplaced : l.Unplaced) (htype : l.type = .readWrite) (hmtype : l.mtype ≠ .interTask) {t : Task D}
    (ht : t ∈ tasks) (htask : ∀ ptr ∈ t.runnables, ptr < runnables.length) {lo hi : ℕ}
    (hlo : lo ∈ t.runnables) (hhi : hi ∈ t.runnables) (hlt : lo < hi) :
    let s := if l.mtype = .intraTaskFwd then
        (addLabel (addLabel runnables lo l.id .rwIntraTaskWritten) hi l.id .rwIntraTaskRead,
          labels ++ [(l.addWriter lo).addReader hi])
      else
        (addLabel (addLabel runnables lo l.id .rwIntraTaskRead) hi l.id .rwIntraTaskWritten,
          labels ++ [(l.addReader lo).addWriter hi])
    ∃ l', s.2 = labels ++ [l'] ∧ l.MappedTo tasks l' ∧ Recorded s.1 (s.2 ++ rest)
      ∧ skeleton s.1 = skeleton runnables := by
  have hinter : ¬l.IsInterTask := fun h => hmtype h.2
  obtain ⟨hread, hwritten⟩ := Label.access_of_intraTask htype hmtype
  have hskeleton : ∀ a a' ptr ptr', skeleton (addLabel (addLabel runnables ptr l.id a) ptr' l.id a')
      = skeleton runnables := fun a a' ptr ptr' => by rw [skeleton_addLabel, skeleton_addLabel]
  by_cases hfwd : l.mtype = .intraTaskFwd
  · have hplaced : ((l.addWriter lo).addReader hi).Placed tasks :=
      .intraTask htype hmtype hi lo (hunplaced.readers_addReader hi) (hunplaced.writers_addWriter lo)
        ((if_pos hfwd).mpr hlt) t ht hhi hlo
    simp only [if_pos hfwd]
    refine ⟨_, rfl, hplaced.mappedTo hinter rfl rfl rfl, ?_, hskeleton ..⟩
    rw [List.append_assoc, ← hread, ← hwritten]
    exact hrecorded.addWriterReader (htask lo hlo) (htask hi hhi)
  · have hplaced : ((l.addReader lo).addWriter hi).Placed tasks :=
      .intraTask htype hmtype lo hi (hunplaced.readers_addReader lo) (hunplaced.writers_addWriter hi)
        ((if_neg hfwd).mpr hlt) t ht hlo hhi
    simp only [if_neg hfwd]
    refine ⟨_, rfl, hplaced.mappedTo hinter rfl rfl rfl, ?_, hskeleton ..⟩
    rw [List.append_assoc, ← hread, ← hwritten]
    exact hrecorded.addReaderWriter (htask lo hlo) (htask hi hhi)

/-- One label is mapped, and recorded in the lists it is added to. -/
theorem yields_mapLabel {tasks : List (Task D)} {runnables : List (Runnable D)} {labels : List Label}
    {l : Label} {rest : List Label} (hrecorded : Recorded runnables (labels ++ l :: rest))
    (hnumbered : Numbered runnables) (hunplaced : l.Unplaced)
    (htasks : ∀ t ∈ tasks, ∀ ptr ∈ t.runnables, ptr < runnables.length) :
    (mapLabel tasks (runnables, labels) l).Yields fun s => ∃ l', s.2 = labels ++ [l']
      ∧ l.MappedTo tasks l' ∧ Recorded s.1 (s.2 ++ rest) ∧ skeleton s.1 = skeleton runnables := by
  unfold mapLabel
  dsimp only
  split
  · rename_i htype
    have haccess : l.readAccess = .roRead := by rw [Label.readAccess, htype]
    have hinter : ¬l.IsInterTask := fun h => by simp [Label.IsInterTask, htype] at h
    refine yields_pick.bind fun r hr => yields_pure ⟨_, rfl, ?_, ?_, skeleton_addLabel ..⟩
    · exact Label.Placed.mappedTo (.readOnly htype r (hunplaced.readers_addReader r) hunplaced.2) hinter
        rfl rfl rfl
    · rw [List.append_assoc]
      exact hrecorded.add (List.mem_range.mp hr) (haccess ▸ sites_addReader l r) rfl
  · rename_i htype
    have haccess : l.writeAccess = .woWritten := by rw [Label.writeAccess, htype]
    have hinter : ¬l.IsInterTask := fun h => by simp [Label.IsInterTask, htype] at h
    refine yields_pick.bind fun w hw => yields_pure ⟨_, rfl, ?_, ?_, skeleton_addLabel ..⟩
    · exact Label.Placed.mappedTo (.writeOnly htype w hunplaced.1 (hunplaced.writers_addWriter w)) hinter
        rfl rfl rfl
    · rw [List.append_assoc]
      exact hrecorded.add (List.mem_range.mp hw) (haccess ▸ sites_addWriter l w) rfl
  · rename_i htype hmtype
    refine yields_pure ⟨l, rfl, ⟨rfl, ?_⟩, ?_, rfl⟩
    · rw [if_pos ⟨htype, hmtype⟩]
    · rw [List.append_assoc]
      exact hrecorded
  · rename_i mtype htype hmtype
    refine yields_pickUntil.bind fun t ht => yields_pick.bind fun r1 hr1 => ?_
    refine yields_pickUntil.bind fun r2 hr2 => ?_
    obtain ⟨lo, hi, hpair, hlo, hhi, hlt⟩ :=
      exists_ordered hnumbered (htasks t ht.1) hr1 hr2.1 fun heq => of_decide_eq_true hr2.2 (congrArg _ heq)
    rw [hpair]
    exact yields_pure (mapped_addOrdered hrecorded hunplaced htype hmtype ht.1 (htasks t ht.1) hlo hhi hlt)

/-- `map_labels_to_runnables` on labels that are not mapped yet. -/
theorem yields_mapLabelsToRunnables {tasks : List (Task D)} {runnables : List (Runnable D)}
    {labels : List Label} (hrecorded : Recorded runnables labels) (hnumbered : Numbered runnables)
    (hunplaced : ∀ l ∈ labels, l.Unplaced)
    (htasks : ∀ t ∈ tasks, ∀ ptr ∈ t.runnables, ptr < runnables.length) :
    (mapLabelsToRunnables tasks runnables labels).Yields fun s => Recorded s.1 s.2
      ∧ skeleton s.1 = skeleton runnables ∧ List.Forall₂ (Label.MappedTo tasks) labels s.2 := by
  show (labels.foldlM (mapLabel tasks) (runnables, [])).Yields _
  refine (yields_foldlM (fun done s => (∀ rest, labels = done ++ rest → Recorded s.1 (s.2 ++ rest))
      ∧ skeleton s.1 = skeleton runnables ∧ List.Forall₂ (Label.MappedTo tasks) done s.2)
    ⟨fun rest hsplit => hsplit ▸ hrecorded, rfl, .nil⟩ ?_).mono fun s hs => ⟨?_, hs.2⟩
  · rintro done l rest ⟨rs, ls⟩ hsplit ⟨hrecorded, hskeleton, hmapped⟩
    have hlength := length_of_skeleton hskeleton
    refine (yields_mapLabel (hrecorded _ hsplit) (numbered_of_skeleton hskeleton hnumbered)
      (hunplaced l (by simp [hsplit])) fun t ht ptr hptr => hlength ▸ htasks t ht ptr hptr).mono ?_
    rintro ⟨rs', ls'⟩ ⟨l', rfl, hl', hrecorded', hskeleton'⟩
    refine ⟨fun rest' hsplit' => ?_, hskeleton'.trans hskeleton,
      List.rel_append hmapped (.cons hl' .nil)⟩
    have hrest : rest' = rest := by simpa using hsplit'.symm.trans hsplit
    rwa [hrest]
  · have hall := hs.1 [] (by simp)
    rwa [List.append_nil] at hall

/-! ## Labels between tasks -/

theorem periodToRunnables_eq_some_iff {runnables : List (Runnable D)} {p : ℤ} {ptrs : List ℕ} :
    (periodToRunnables runnables)[p]? = some ptrs ↔ ptrs = pointersOf runnables p ∧ ptrs ≠ [] := by
  rw [periodToRunnables, OrderedMap.getElem?_foldl_pushBack, pointersOf]
  split_ifs with hnil
  · rw [hnil]
    exact iff_of_false id fun h => h.2 h.1
  · rw [Option.some.injEq]
    exact ⟨fun h => ⟨h.symm, fun hempty => hnil (List.map_eq_nil_iff.mp (h.trans hempty))⟩, fun h => h.1.symm⟩

theorem periodToRunnables_eq {runnables : List (Runnable D)} {p : ℤ} {ptrs : List ℕ}
    (h : (periodToRunnables runnables)[p]? = some ptrs) : ptrs = pointersOf runnables p :=
  (periodToRunnables_eq_some_iff.mp h).1

theorem lt_of_mem_periodToRunnables {runnables : List (Runnable D)} {p : ℤ} {ptrs : List ℕ}
    (h : (periodToRunnables runnables)[p]? = some ptrs) {ptr : ℕ} (hptr : ptr ∈ ptrs) :
    ptr < runnables.length := by
  rw [periodToRunnables_eq h, mem_pointersOf] at hptr
  simpa using (List.getElem?_eq_some_iff.mp hptr).1

/-- One label between tasks is mapped, or is to be deleted. -/
theorem yields_mapInterTaskMsg {reverseDist : Std.TreeMap MessageVolumeType (List (Range ℤ))}
    {pToR : Std.TreeMap ℤ (List ℕ)} {runnables : List (Runnable D)} {labels : List Label}
    {labelsToBeDeleted : Std.TreeSet ℤ} {l : Label} {rest : List Label}
    (hrecorded : Recorded runnables (labels ++ l :: rest))
    (hpToR : ∀ (p : ℤ) ptrs, pToR[p]? = some ptrs → ∀ ptr ∈ ptrs, ptr < runnables.length)
    (tasks : List (Task D)) (hl : if l.IsInterTask then l.Unplaced else l.Placed tasks) :
    (mapInterTaskMsg reverseDist pToR (runnables, labels, labelsToBeDeleted) l).Yields fun s =>
      ∃ l', s.2.1 = labels ++ [l'] ∧ l'.id = l.id ∧ Recorded s.1 (s.2.1 ++ rest)
        ∧ skeleton s.1 = skeleton runnables
        ∧ (s.2.2 = labelsToBeDeleted ∧ l'.Placed tasks
          ∨ s.2.2 = labelsToBeDeleted.insert l.id ∧ l'.Unplaced) := by
  unfold mapInterTaskMsg
  dsimp only
  have hkept : Recorded runnables (labels ++ [l] ++ rest) := by rwa [List.append_assoc]
  by_cases hinter : l.IsInterTask
  · rw [if_pos hinter] at hl ⊢
    have hread : l.readAccess = .rwInterTaskRead := by rw [Label.readAccess, hinter.1, hinter.2]
    have hwritten : l.writeAccess = .rwInterTaskWritten := by rw [Label.writeAccess, hinter.1, hinter.2]
    refine yields_pick.bind fun p _ => ?_
    split
    · rename_i senders receivers hsenders hreceivers
      split_ifs
      · exact yields_pure ⟨l, rfl, rfl, hkept, rfl, Or.inr ⟨rfl, hl⟩⟩
      · refine yields_pick.bind fun r1 hr1 => yields_pickUntil.bind fun r2 hr2 => ?_
        have hne : r2 ≠ r1 := fun heq => of_decide_eq_true hr2.2 (congrArg _ heq.symm)
        refine yields_pure ⟨_, rfl, rfl, ?_, ?_, Or.inl ⟨rfl, ?_⟩⟩
        · rw [List.append_assoc, ← hread, ← hwritten]
          exact hrecorded.addWriterReader (hpToR _ _ hsenders r1 hr1) (hpToR _ _ hreceivers r2 hr2.1)
        · exact (skeleton_addLabel ..).trans (skeleton_addLabel ..)
        · exact .interTask hinter.1 hinter.2 r2 r1 (hl.readers_addReader r2) (hl.writers_addWriter r1) hne
    · exact yields_pure ⟨l, rfl, rfl, hkept, rfl, Or.inr ⟨rfl, hl⟩⟩
  · rw [if_neg hinter] at hl ⊢
    exact yields_pure ⟨l, rfl, rfl, hkept, rfl, Or.inl ⟨rfl, hl⟩⟩

/-- The labels agree but for the volume type. -/
def Label.SameButVolume (l l' : Label) : Prop := l' = { l with mvtype := l'.mvtype }

/-- The table of volume types that `map_inter_task_msgs_to_runnables` reads. -/
def InterTaskMessagesConfig.readVolumeTypes (cfg : InterTaskMessagesConfig) :
    Std.TreeMap MessageVolumeType (Range ℤ) :=
  (cfg.volumeTypes.insertIfNew .I ⟨0, 0⟩).insertIfNew .VI ⟨0, 0⟩

/-- The volume type of the first range with the volume `n`. -/
def InterTaskMessagesConfig.typeOfVolume (cfg : InterTaskMessagesConfig) (n : ℤ) : Option MessageVolumeType :=
  (cfg.readVolumeTypes.toList.find? fun e => e.2.min ≤ n ∧ n ≤ e.2.max).map (·.1)

/-- A label between tasks can get the volume type. -/
def InterTaskMessagesConfig.CanDraw (cfg : InterTaskMessagesConfig) (mvtype : MessageVolumeType) : Prop :=
  ∃ n, (cfg.readVolumeTypes.getD .I ⟨0, 0⟩).min ≤ n ∧ n ≤ (cfg.readVolumeTypes.getD .VI ⟨0, 0⟩).max
    ∧ cfg.typeOfVolume n = some mvtype

theorem yields_assignVolumeTypes (cfg : InterTaskMessagesConfig) (labels : List Label) :
    (assignVolumeTypes cfg labels : Drawing D (List Label)).Yields
      (List.Forall₂ (fun l l' => l.SameButVolume l' ∧ (l.IsInterTask → cfg.CanDraw l'.mvtype)) labels) := by
  refine yields_mapM fun l _ => ?_
  split_ifs with hinter
  · refine yields_int.bind fun n hn => (yields_lift fun _ => id).bind fun it hit => ?_
    refine yields_pure ⟨rfl, fun _ => ⟨n, hn.1, hn.2, ?_⟩⟩
    rw [InterTaskMessagesConfig.typeOfVolume, InterTaskMessagesConfig.readVolumeTypes, hit]
    rfl
  · exact yields_pure ⟨rfl, fun h => absurd h hinter⟩

theorem Label.SameButVolume.placed {tasks : List (Task D)} {l l' : Label} (h : l.SameButVolume l')
    (hl : if l.IsInterTask then l.Unplaced else l.Placed tasks) :
    if l'.IsInterTask then l'.Unplaced else l'.Placed tasks := by
  rw [h]
  by_cases hinter : l.IsInterTask
  · rw [if_pos hinter] at hl
    exact (if_pos hinter).mpr hl
  · rw [if_neg hinter] at hl
    refine (if_neg hinter).mpr ?_
    cases hl with
    | readOnly htype r hreaders hwriters => exact .readOnly htype r hreaders hwriters
    | writeOnly htype w hreaders hwriters => exact .writeOnly htype w hreaders hwriters
    | intraTask htype hmtype r w hreaders hwriters horder t ht hr hw =>
      exact .intraTask htype hmtype r w hreaders hwriters horder t ht hr hw
    | interTask htype hmtype => exact absurd ⟨htype, hmtype⟩ hinter

theorem records_sameButVolume {labels labels' : List Label}
    (h : List.Forall₂ Label.SameButVolume labels labels') :
    records labels' = records labels ∧ labels'.map (·.id) = labels.map (·.id) := by
  induction h with
  | nil => exact ⟨rfl, rfl⟩
  | cons hl _ ih =>
    refine ⟨?_, ?_⟩
    · rw [records_cons, records_cons, ih.1, hl]
      rfl
    · rw [List.map_cons, ih.2, hl]
      rfl

theorem forall_sameButVolume {tasks : List (Task D)} {labels labels' : List Label}
    (h : List.Forall₂ Label.SameButVolume labels labels')
    (hlabels : ∀ l ∈ labels, if l.IsInterTask then l.Unplaced else l.Placed tasks) :
    ∀ l ∈ labels', if l.IsInterTask then l.Unplaced else l.Placed tasks := by
  induction h with
  | nil => exact hlabels
  | cons hl _ ih =>
    obtain ⟨hfirst, hrest⟩ := List.forall_mem_cons.mp hlabels
    exact List.forall_mem_cons.mpr ⟨hl.placed hfirst, ih hrest⟩

/-- Labels that are never mapped are not recorded anywhere. -/
theorem records_filter {labels : List Label} {keep : Label → Bool}
    (h : ∀ l ∈ labels, keep l = false → l.Unplaced) : records (labels.filter keep) = records labels := by
  induction labels with
  | nil => rfl
  | cons l labels ih =>
    obtain ⟨hl, hlabels⟩ := List.forall_mem_cons.mp h
    cases hkeep : keep l with
    | true =>
      rw [List.filter_cons_of_pos hkeep, records_cons, records_cons, ih hlabels]
    | false =>
      have hsites : l.sites = [] := by
        rw [Label.sites, (hl hkeep).1, (hl hkeep).2]
        rfl
      rw [List.filter_cons_of_neg (by simp [hkeep]), records_cons, ih hlabels, hsites, List.map_nil,
        List.nil_append]

/-- The invariant of the loop of `map_inter_task_msgs_to_runnables` over `labels`: those that are done are
mapped, or are to be deleted. -/
structure MappedUpTo (tasks : List (Task D)) (runnables : List (Runnable D)) (labels done : List Label)
    (s : List (Runnable D) × List Label × Std.TreeSet ℤ) : Prop where
  recorded : ∀ rest, labels = done ++ rest → Recorded s.1 (s.2.1 ++ rest)
  skeleton_eq : skeleton s.1 = skeleton runnables
  ids_eq : s.2.1.map (·.id) = done.map (·.id)
  mem_done : ∀ lid ∈ s.2.2, lid ∈ done.map (·.id)
  placed : ∀ l ∈ s.2.1, if l.id ∈ s.2.2 then l.Unplaced else l.Placed tasks

namespace MappedUpTo

variable {tasks : List (Task D)} {runnables : List (Runnable D)} {labels done : List Label}

/-- One label more, which is mapped or is to be deleted. -/
theorem append {l l' : Label} {rest ls : List Label} {rs rs' : List (Runnable D)}
    {deleted deleted' : Std.TreeSet ℤ} (h : MappedUpTo tasks runnables labels done (rs, ls, deleted))
    (hsplit : labels = done ++ l :: rest) (hfresh : l.id ∉ done.map (·.id)) (hid : l'.id = l.id)
    (hrecorded : Recorded rs' (ls ++ [l'] ++ rest)) (hskeleton : skeleton rs' = skeleton rs)
    (hcases : deleted' = deleted ∧ l'.Placed tasks ∨ deleted' = deleted.insert l.id ∧ l'.Unplaced) :
    MappedUpTo tasks runnables labels (done ++ [l]) (rs', ls ++ [l'], deleted') where
  recorded rest' hsplit' := by
    have hrest : rest' = rest := by simpa using hsplit'.symm.trans hsplit
    rwa [hrest]
  skeleton_eq := hskeleton.trans h.skeleton_eq
  ids_eq := by
    rw [List.map_append, List.map_append, h.ids_eq, List.map_singleton, List.map_singleton, hid]
  mem_done lid hlid := by
    rw [List.map_append, List.mem_append]
    rcases hcases with ⟨rfl, -⟩ | ⟨rfl, -⟩
    · exact Or.inl (h.mem_done lid hlid)
    · rcases OrderedMap.mem_set_insert.mp hlid with rfl | hlid
      · exact Or.inr List.mem_cons_self
      · exact Or.inl (h.mem_done lid hlid)
  placed l₁ hl₁ := by
    replace hl₁ : l₁ ∈ ls ∨ l₁ ∈ [l'] := List.mem_append.mp hl₁
    rcases hl₁ with hl₁ | hl₁
    · have hne : l.id ≠ l₁.id := fun heq =>
        hfresh (heq ▸ h.ids_eq ▸ List.mem_map_of_mem hl₁)
      rcases hcases with ⟨rfl, -⟩ | ⟨rfl, -⟩
      · exact h.placed l₁ hl₁
      · simpa only [OrderedMap.mem_set_insert, hne, false_or] using h.placed l₁ hl₁
    · obtain rfl := List.mem_singleton.mp hl₁
      rw [hid]
      rcases hcases with ⟨rfl, hplaced⟩ | ⟨rfl, hunplaced⟩
      · rwa [if_neg fun hmem => hfresh (h.mem_done _ hmem)]
      · rwa [if_pos (OrderedMap.mem_set_insert.mpr (Or.inl rfl))]

/-- What is left when the labels to be deleted are erased. -/
theorem erase {s : List (Runnable D) × List Label × Std.TreeSet ℤ}
    (h : MappedUpTo tasks runnables labels labels s) :
    Recorded s.1 (s.2.1.filter fun l => !s.2.2.contains l.id)
      ∧ ∀ l ∈ s.2.1.filter (fun l => !s.2.2.contains l.id), l.Placed tasks := by
  refine ⟨fun ptr a lid => ?_, fun l hl => ?_⟩
  · rw [records_filter fun l hl hkeep => ?_]
    · have hrecorded := h.recorded [] (List.append_nil _).symm
      rw [List.append_nil] at hrecorded
      exact hrecorded ptr a lid
    · have hplaced := h.placed l hl
      rwa [if_pos (by simpa using hkeep)] at hplaced
  · obtain ⟨hl, hkeep⟩ := List.mem_filter.mp hl
    have hplaced := h.placed l hl
    have hnot : l.id ∉ s.2.2 := fun hmem => by
      simp [Std.TreeSet.mem_iff_contains.mp hmem] at hkeep
    rwa [if_neg hnot] at hplaced

end MappedUpTo

/-- `map_inter_task_msgs_to_runnables`: what is left is mapped. -/
theorem yields_mapInterTaskMsgsToRunnables (cfg : Config D) {tasks : List (Task D)}
    {runnables : List (Runnable D)} {labels : List Label} (hrecorded : Recorded runnables labels)
    (hids : (labels.map (·.id)).Nodup)
    (hlabels : ∀ l ∈ labels, if l.IsInterTask then l.Unplaced else l.Placed tasks) :
    (mapInterTaskMsgsToRunnables cfg runnables labels).Yields fun s => Recorded s.1 s.2
      ∧ skeleton s.1 = skeleton runnables ∧ (s.2.map (·.id)).Sublist (labels.map (·.id))
      ∧ ∀ l ∈ s.2, l.Placed tasks := by
  refine (yields_assignVolumeTypes _ labels).bind fun typed htyped => ?_
  replace htyped := htyped.imp fun _ _ => And.left
  obtain ⟨hsame, hsameIds⟩ := records_sameButVolume htyped
  replace hrecorded : Recorded runnables typed := fun ptr a lid => hsame ▸ hrecorded ptr a lid
  replace hids : (typed.map (·.id)).Nodup := hsameIds ▸ hids
  replace hlabels := forall_sameButVolume htyped hlabels
  refine (yields_any _).bind fun reverseDist _ => ?_
  refine (yields_foldlM (MappedUpTo tasks runnables typed)
    ⟨fun rest hsplit => hsplit ▸ hrecorded, rfl, rfl, by simp, fun _ hl => absurd hl List.not_mem_nil⟩
    ?_).bind fun s hs => ?_
  · rintro done l rest ⟨rs, ls, deleted⟩ hsplit hmapped
    have hfresh : l.id ∉ done.map (·.id) := by
      rw [hsplit, List.map_append, List.map_cons] at hids
      exact fun hmem => List.disjoint_of_nodup_append hids hmem List.mem_cons_self
    refine (yields_mapInterTaskMsg (hmapped.recorded _ hsplit) (fun p ptrs hp ptr hptr => ?_) tasks
      (hlabels l (by simp [hsplit]))).mono ?_
    · rw [length_of_skeleton hmapped.skeleton_eq]
      exact lt_of_mem_periodToRunnables hp hptr
    · rintro ⟨rs', ls', deleted'⟩ ⟨l', rfl, hid, hrecorded', hskeleton', hcases⟩
      exact hmapped.append hsplit hfresh hid hrecorded' hskeleton' hcases
  · obtain ⟨hrecorded', hplaced⟩ := hs.erase
    refine yields_pure ⟨hrecorded', hs.skeleton_eq, ?_, hplaced⟩
    rw [← hsameIds, ← hs.ids_eq]
    exact List.filter_sublist.map _

/-! ## The finished instance -/

/-- Runnables without labels, and labels that are not mapped. -/
theorem recorded_of_unplaced {runnables : List (Runnable D)} {labels : List Label}
    (hrunnables : ∀ r ∈ runnables, r.toLabelLists = {}) (hlabels : ∀ l ∈ labels, l.Unplaced) :
    Recorded runnables labels := by
  intro ptr a lid
  have hrecords : records labels = [] := by
    rw [records, List.flatMap_eq_nil_iff]
    intro l hl
    rw [Label.sites, (hlabels l hl).1, (hlabels l hl).2]
    rfl
  have hheld : held runnables ptr a = [] := by
    rw [held]
    cases hr : runnables[ptr]? with
    | none => rfl
    | some r =>
      rw [Option.elim_some, hrunnables r (List.mem_of_getElem? hr)]
      cases a <;> rfl
  rw [hrecords, hheld]
  rfl

/-- After `map_labels_to_runnables` only the labels between tasks are left. -/
theorem forall_mappedTo {tasks : List (Task D)} {labels labels' : List Label}
    (h : List.Forall₂ (Label.MappedTo tasks) labels labels') (hunplaced : ∀ l ∈ labels, l.Unplaced) :
    labels'.map (·.id) = labels.map (·.id)
      ∧ ∀ l ∈ labels', if l.IsInterTask then l.Unplaced else l.Placed tasks := by
  induction h with
  | nil => exact ⟨rfl, nofun⟩
  | @cons l l' _ _ hl _ ih =>
    obtain ⟨hfirst, hrest⟩ := List.forall_mem_cons.mp hunplaced
    obtain ⟨hids, hlabels⟩ := ih hrest
    refine ⟨congrArg₂ List.cons hl.1 hids, List.forall_mem_cons.mpr ⟨?_, hlabels⟩⟩
    have hmapped := hl.2
    by_cases hinter : l.IsInterTask
    · rw [if_pos hinter] at hmapped
      rwa [hmapped, if_pos hinter]
    · rw [if_neg hinter] at hmapped
      rw [if_neg hmapped.2]
      exact hmapped.1

variable [Floating D] [DecidableLT D] [DecidableLE D]

theorem yields_generateLabelInstances (cfg : Config D)
    (mtype : MessageType) (max : ℤ) :
    (generateLabelInstances cfg mtype max).Yields fun labels =>
      labels.map (·.id) = (List.range max.toNat).map Int.ofNat ∧ ∀ l ∈ labels, l.Unplaced := by
  refine (yields_foldlM (fun done s => s.2.map (·.id) = done.map Int.ofNat ∧ ∀ l ∈ s.2, l.Unplaced)
    ⟨rfl, nofun⟩ ?_).bind fun s hs => yields_pure hs
  rintro done i rest ⟨m, labels⟩ - ⟨hids, hunplaced⟩
  refine (yields_any _).bind fun rand _ => (yields_any _).bind fun size _ =>
    (yields_any _).bind fun type _ => (yields_any _).bind fun m' _ => yields_pure ⟨?_, fun l hl => ?_⟩
  · rw [List.map_append, List.map_append, hids]
    rfl
  · rcases List.mem_append.mp hl with hl | hl
    · exact hunplaced l hl
    · rw [List.mem_singleton.mp hl]
      exact ⟨rfl, rfl⟩

/-- A finished instance: the runnables are numbered by position, a task and its runnables share the
period, the labels have distinct numbers, and each of them is mapped and stands in just the lists of its
readers and writers. -/
structure BenchmarkInstance.WellFormed (b : BenchmarkInstance D) : Prop where
  numbered : Numbered b.runnables
  period : ∀ t ∈ b.tasks, ∀ ptr ∈ t.runnables, (b.runnables.map (·.periodMs))[ptr]? = some t.periodMs
  nodup_ids : (b.labels.map (·.id)).Nodup
  id_nonneg : ∀ l ∈ b.labels, 0 ≤ l.id
  recorded : Recorded b.runnables b.labels
  placed : ∀ l ∈ b.labels, l.Placed b.tasks

namespace BenchmarkInstance

/-- The constructor, up to the labels. -/
def generated (cfg : Config D) (mergeRunnables : Bool) (mtype : MessageType) :
    Drawing D (BenchmarkInstance D) := do
  let numRunnables ← estimateTotalNumber cfg.runnablesCfg.count cfg.scaleFactor
  let runnables ← generateRunnableInstances cfg numRunnables
  let runnables ← generateRunnableAcetsBcetsAndWcets cfg runnables
  let tasks := generateTaskInstancesFromRunnables cfg mergeRunnables runnables
  let numLabels ← estimateTotalNumber cfg.labelsCfg.count cfg.scaleFactor
  let labels ← generateLabelInstances cfg mtype numLabels
  return ⟨runnables, tasks, labels⟩

/-- `map_labels_to_runnables()` on an instance. -/
def mapLabels (b : BenchmarkInstance D) : Drawing D (BenchmarkInstance D) := do
  let (runnables, labels) ← mapLabelsToRunnables b.tasks b.runnables b.labels
  return ⟨runnables, b.tasks, labels⟩

/-- `map_inter_task_msgs_to_runnables()` on an instance. -/
def mapInterTaskMsgs (cfg : Config D) (b : BenchmarkInstance D) : Drawing D (BenchmarkInstance D) := do
  let (runnables, labels) ← mapInterTaskMsgsToRunnables cfg b.runnables b.labels
  return ⟨runnables, b.tasks, labels⟩

theorem new_eq (cfg : Config D) (mergeRunnables : Bool) (mtype : MessageType) :
    BenchmarkInstance.new cfg mergeRunnables mtype
      = generated cfg mergeRunnables mtype >>= mapLabels >>= mapInterTaskMsgs cfg := by
  simp only [BenchmarkInstance.new, generated, mapLabels, mapInterTaskMsgs, bind_assoc, pure_bind]

/-- An instance whose labels are not mapped yet. -/
structure Generated (cfg : Config D) (mergeRunnables : Bool) (b : BenchmarkInstance D) : Prop where
  numbered : Numbered b.runnables
  empty : ∀ r ∈ b.runnables, r.toLabelLists = {}
  period_mem : ∀ r ∈ b.runnables, r.periodMs ∈ cfg.periodsMs
  tasks_eq : b.tasks = generateTaskInstancesFromRunnables cfg mergeRunnables b.runnables
  ids_eq : ∃ n, b.labels.map (·.id) = (List.range n).map Int.ofNat
  unplaced : ∀ l ∈ b.labels, l.Unplaced

theorem yields_generated (cfg : Config D) (mergeRunnables : Bool) (mtype : MessageType) :
    (generated cfg mergeRunnables mtype).Yields (Generated cfg mergeRunnables) := by
  refine (yields_any _).bind fun numRunnables _ => ?_
  refine (yields_lift fun rs hrs => generateRunnableInstances_spec hrs).bind fun rs₀ ⟨hnumbered, hrs₀⟩ => ?_
  refine (yields_execTimes cfg rs₀).bind fun rs hrs => (yields_any _).bind fun numLabels _ => ?_
  refine (yields_generateLabelInstances cfg mtype numLabels).bind fun labels ⟨hids, hunplaced⟩ =>
    yields_pure ⟨numbered_of_skeleton (skeleton_of_sameButTimes hrs) hnumbered,
      empty_of_sameButTimes hrs fun r hr => (hrs₀ r hr).1, fun r hr => ?_, rfl, ⟨_, hids⟩, hunplaced⟩
  obtain ⟨r₀, hr₀, hsame⟩ := exists_of_mem_right hrs hr
  exact hsame.2.2 ▸ (hrs₀ r₀ hr₀).2

/-- An instance in which the labels between tasks are still to be mapped. -/
structure MappedWithinTasks (cfg : Config D) (b : BenchmarkInstance D) : Prop where
  numbered : Numbered b.runnables
  period_mem : ∀ p ∈ b.runnables.map (·.periodMs), p ∈ cfg.periodsMs
  period : ∀ t ∈ b.tasks, ∀ ptr ∈ t.runnables, (b.runnables.map (·.periodMs))[ptr]? = some t.periodMs
  nodup_task : ∀ t ∈ b.tasks, t.runnables.Nodup
  covered : ∀ ptr < b.runnables.length, ptr ∈ b.tasks.flatMap (·.runnables)
  nodup_ids : (b.labels.map (·.id)).Nodup
  id_nonneg : ∀ l ∈ b.labels, 0 ≤ l.id
  recorded : Recorded b.runnables b.labels
  labels : ∀ l ∈ b.labels, if l.IsInterTask then l.Unplaced else l.Placed b.tasks

namespace Generated

variable {cfg : Config D} {mergeRunnables : Bool} {b : BenchmarkInstance D}
  (h : b.Generated cfg mergeRunnables)

include h

omit [DecidableLT D] in
theorem period {t : Task D} (ht : t ∈ b.tasks) {ptr : ℕ} (hptr : ptr ∈ t.runnables) :
    (b.runnables.map (·.periodMs))[ptr]? = some t.periodMs := period_of_mem_task (h.tasks_eq ▸ ht) hptr

omit [DecidableLT D] in
theorem lt_length {t : Task D} (ht : t ∈ b.tasks) {ptr : ℕ} (hptr : ptr ∈ t.runnables) :
    ptr < b.runnables.length := by
  simpa using (List.getElem?_eq_some_iff.mp (h.period ht hptr)).1

omit [DecidableLT D] in
theorem yields_mapLabels : b.mapLabels.Yields (MappedWithinTasks cfg) := by
  refine (yields_mapLabelsToRunnables (recorded_of_unplaced h.empty h.unplaced) h.numbered h.unplaced
    fun t ht ptr => h.lt_length ht).bind ?_
  rintro ⟨rs, labels⟩ ⟨hrecorded, hskeleton, hmapped⟩
  obtain ⟨hids, hlabels⟩ := forall_mappedTo hmapped h.unplaced
  obtain ⟨n, hn⟩ := h.ids_eq
  refine yields_pure ⟨numbered_of_skeleton hskeleton h.numbered, ?_, fun t ht ptr hptr => ?_,
    fun t ht => nodup_of_mem_task (h.tasks_eq ▸ ht), fun ptr hptr => ?_, ?_, fun l hl => ?_, hrecorded,
    hlabels⟩
  · rw [periods_of_skeleton hskeleton]
    exact List.forall_mem_map.mpr h.period_mem
  · exact (congrArg (·[ptr]?) (periods_of_skeleton hskeleton)).trans (h.period ht hptr)
  · show ptr ∈ b.tasks.flatMap (·.runnables)
    rw [h.tasks_eq]
    exact mem_runnables h.period_mem (length_of_skeleton hskeleton ▸ hptr)
  · show (labels.map (·.id)).Nodup
    rw [hids, hn]
    exact List.nodup_range.map Int.ofNat_injective
  · have hid : l.id ∈ labels.map (·.id) := List.mem_map_of_mem hl
    rw [hids, hn] at hid
    obtain ⟨i, -, hi⟩ := List.mem_map.mp hid
    exact hi ▸ Int.natCast_nonneg i

end Generated

theorem yields_mappedWithinTasks (cfg : Config D) (mergeRunnables : Bool) (mtype : MessageType) :
    (generated cfg mergeRunnables mtype >>= mapLabels).Yields (MappedWithinTasks cfg) :=
  (yields_generated cfg mergeRunnables mtype).bind fun _ h => h.yields_mapLabels

omit [Floating D] [DecidableLT D] [DecidableLE D] in
theorem MappedWithinTasks.yields_mapInterTaskMsgs {cfg : Config D} {b : BenchmarkInstance D}
    (h : b.MappedWithinTasks cfg) : (b.mapInterTaskMsgs cfg).Yields fun b' =>
      b'.WellFormed ∧ b'.tasks = b.tasks ∧ skeleton b'.runnables = skeleton b.runnables := by
  refine (yields_mapInterTaskMsgsToRunnables cfg h.recorded h.nodup_ids h.labels).bind ?_
  rintro ⟨rs, labels⟩ ⟨hrecorded, hskeleton, hids, hplaced⟩
  refine yields_pure ⟨⟨numbered_of_skeleton hskeleton h.numbered, fun t ht ptr hptr => ?_,
    h.nodup_ids.sublist hids, fun l hl => ?_, hrecorded, hplaced⟩, rfl, hskeleton⟩
  · exact (congrArg (·[ptr]?) (periods_of_skeleton hskeleton)).trans (h.period t ht ptr hptr)
  · obtain ⟨l₀, hl₀, hid⟩ := List.mem_map.mp (hids.subset (List.mem_map_of_mem hl))
    exact hid ▸ h.id_nonneg l₀ hl₀

end BenchmarkInstance

/-- A finished instance is well formed, and each of its runnables is in a task. -/
theorem yields_finished (cfg : Config D) (mergeRunnables : Bool) (mtype : MessageType) :
    (BenchmarkInstance.new cfg mergeRunnables mtype).Yields fun b =>
      b.WellFormed ∧ ∀ ptr < b.runnables.length, ptr ∈ b.tasks.flatMap (·.runnables) := by
  rw [BenchmarkInstance.new_eq]
  refine (BenchmarkInstance.yields_mappedWithinTasks cfg mergeRunnables mtype).bind fun b₁ h₁ => ?_
  refine h₁.yields_mapInterTaskMsgs.mono ?_
  rintro b ⟨hb, htasks, hskeleton⟩
  refine ⟨hb, fun ptr hptr => ?_⟩
  rw [htasks]
  exact h₁.covered ptr (length_of_skeleton hskeleton ▸ hptr)

theorem yields_wellFormed (cfg : Config D) (mergeRunnables : Bool)
    (mtype : MessageType) :
    (BenchmarkInstance.new cfg mergeRunnables mtype).Yields BenchmarkInstance.WellFormed :=
  (yields_finished cfg mergeRunnables mtype).mono fun _ => And.left

end KZH15

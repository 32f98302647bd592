import SnapshotStore.Proofs.Segment.Rolling

/-! # Segments that are stored over

A whole segment can be stored under any name, the one of the active segment too.  The name then leads to
another file, but appends still go to the open one, which no name leads to any more (`Folder.Adrift`), until
the archive gives up the active segment.

A `History` has, beside an archive, which appends were acknowledged and which segments were stored.  Whatever
is called (`Call`), a segment that was stored has the bytes that were stored last, and any other one begins
with what was appended to it (`Kept.step`).  So an append that was acknowledged can be read if no segment is
stored under the name of its segment, neither before it nor after it (`segments_of_calls`); one that is stored
before it, while the segment is active, takes it away as well (`append_strays`). -/

namespace SnapshotStore
namespace Segment

/-! ### Files without a name -/

namespace Folder

variable {f : Folder} {n : ℕ}

/-- No name leads to a file. -/
def Adrift (f : Folder) (n : ℕ) : Prop := ∀ k, f.names.get? k ≠ some (.file n)

theorem Plain.setBytes_of_adrift (h : f.Plain) (hn : n < f.contents.size) (hadrift : f.Adrift n)
    (data : Bytes) : (f.setBytes n data).Plain ∧
      ∀ k, (f.setBytes n data).readFile k = f.readFile k := by
  have hplain : (f.setBytes n data).Plain :=
    .of_apart (h.toApart.setData (.file n) data) h.present h.exists_file
  refine ⟨hplain, fun k => ?_⟩
  have hfile : (f.setBytes n data).file? k = f.file? k := file?_congr rfl fun m hm => by
    have hne : m ≠ n := fun heq => hadrift k (heq ▸ hm)
    rw [bytesOf_setBytes hn, if_neg hne]
  rw [hplain.readFile_eq, h.readFile_eq, hfile]

/-- A file that is written has the number that its name led to before, or a new one. -/
theorem Plain.names_writeFile (h : f.Plain) (name : String) (data : Bytes) : ∃ f' m,
    f.writeFile name data = (.ok (), f') ∧ f.contents.size ≤ f'.contents.size ∧
      (f.names.get? name = some (.file m) ∨ m = f.contents.size) ∧
      ∀ k, f'.names.get? k = if k = name then some (.file m) else f.names.get? k := by
  have hfree (m : ℕ) := writable_file m data
  cases hg : f.names.get? name with
  | some e =>
      obtain ⟨m, rfl, -⟩ := h.file hg
      refine ⟨f.setBytes m data, m, ?_, by simp [Folder.setBytes], .inl rfl, fun k => ?_⟩
      · simp [Folder.writeFile, Folder.fill, Folder.openForWriting, h.present, hg, hfree, setData]
      · split
        · next hk => rw [hk]; exact hg
        · rfl
  | none =>
      let f₁ : Folder := { f with
        names := f.names.insert name (.file f.contents.size)
        contents := f.contents.push [] }
      refine ⟨f₁.setBytes f.contents.size data, f.contents.size, ?_, ?_, .inr rfl, fun k => ?_⟩
      · simp [Folder.writeFile, Folder.fill, Folder.openForWriting, h.present, hg, hfree, setData, f₁]
      · simp [Folder.setBytes, f₁]
      · exact Table.get?_insert ..

theorem names_rename {f' : Folder} {source target : String} {m : ℕ}
    (hrename : f.rename source target = .ok f') (hsource : f.names.get? source = some (.file m)) :
    f'.contents = f.contents ∧ ∀ k, f'.names.get? k =
      if k = target then some (.file m) else if k = source then none else f.names.get? k := by
  rw [rename, hsource] at hrename
  split at hrename
  · next heq => cases heq
  · next e heq =>
    obtain rfl := Option.some.inj heq
    split at hrename
    · cases hrename
    · obtain rfl := Except.ok.inj hrename
      exact ⟨rfl, fun k => by rw [Table.get?_insert, Table.get?_erase]⟩

end Folder

namespace Archive

variable {a a' : Archive} {active : Active}

theorem name_le_name {m n : ℕ} (h : m ≤ n) (hn : n < Wire.wordLimit) : name m ≤ name n := by
  rcases Nat.eq_or_lt_of_le h with rfl | hlt
  · exact le_refl _
  · exact (name_lt_name hlt hn).le

/-- What a folder has after a segment was stored in it.  The segment is another file; one that no other name
led to has no name any more. -/
structure Stored (f : Folder) (name : String) (data : Bytes) (folder : Folder) : Prop where
  plain : folder.Plain
  size : f.contents.size ≤ folder.contents.size
  read : ∀ k, folder.readFile k = if k = name then .ok data
    else if k = temporary name then .error .notFound else f.readFile k
  names : ∀ k, k ≠ name → k ≠ temporary name → folder.names.get? k = f.names.get? k
  adrift : ∀ n < f.contents.size, (∀ k, k ≠ name → f.names.get? k ≠ some (.file n)) → folder.Adrift n

theorem exists_stored (h : a.folder.Plain) {name : String} {id : ℕ} (hid : id? name = some id)
    (data : Bytes) : ∃ folder, a.store name data =
        (.ok (), { a with folder, upcoming := max a.upcoming (nextId id) }) ∧
      Stored a.folder name data folder := by
  obtain ⟨f₂, hstore, hplain, hread⟩ := store_plain h hid data
  refine ⟨f₂, hstore, ?_⟩
  obtain ⟨f₁, m, hwrite, hsize, hm, hnames⟩ := h.names_writeFile (temporary name) data
  simp only [store, checkName_of_id? hid, hwrite] at hstore
  split at hstore
  · cases hstore
  · next f hrename =>
    obtain rfl : f = f₂ := congrArg (fun run => run.2.folder) hstore
    obtain ⟨hcontents, hrenamed⟩ := Folder.names_rename hrename ((hnames _).trans (if_pos rfl))
    have hother {k : String} (hk : k ≠ name) (ht : k ≠ temporary name) :
        f.names.get? k = a.folder.names.get? k := by
      rw [hrenamed, if_neg hk, if_neg ht, hnames, if_neg ht]
    refine ⟨hplain, hcontents ▸ hsize, hread, fun k => hother, fun n hn hnone k hk => ?_⟩
    by_cases hkn : k = name
    · rw [hrenamed, if_pos hkn] at hk
      obtain rfl : m = n := Entry.file.inj (Option.some.inj hk)
      have htemp : temporary name ≠ name := fun heq => by
        have hnot := id?_temporary name
        rw [heq, hid] at hnot
        cases hnot
      rcases hm with hm | hm
      · exact hnone _ htemp hm
      · exact absurd hn (by rw [hm]; exact Nat.lt_irrefl _)
    · by_cases ht : k = temporary name
      · rw [hrenamed, if_neg hkn, if_pos ht] at hk
        cases hk
      · exact hnone k hkn ((hother hkn ht).symm.trans hk)

section stored
variable {f folder : Folder} {name k : String} {data data' : Bytes} (h : Stored f name data folder)
include h

theorem Stored.of_ne (hk : (id? k).isSome = true) (hne : k ≠ name) :
    folder.readFile k = f.readFile k ∧ folder.names.get? k = f.names.get? k := by
  have htemp : k ≠ temporary name := by
    rintro rfl
    simp [id?_temporary] at hk
  exact ⟨by rw [h.read, if_neg hne, if_neg htemp], h.names k hne htemp⟩

theorem Stored.exists_readFile (hk : (id? k).isSome = true) (hr : f.readFile k = .ok data') :
    ∃ data', folder.readFile k = .ok data' := by
  by_cases hne : k = name
  · exact ⟨data, (h.read k).trans (if_pos hne)⟩
  · exact ⟨data', (h.of_ne hk hne).1.trans hr⟩

end stored

/-! ### Histories -/

/-- What is done with an archive: bytes are appended, which may fail, a whole segment is stored under a
name, a segment is shipped, or the folder is opened anew. -/
inductive Call where
  | append (data : Bytes) (fate : WriteFate)
  | store (name : String) (data : Bytes)
  | ship (name : String)
  | reopen (bound : ℕ)

/-- Whether bytes are appended. -/
def Call.isAppend : Call → Bool
  | .append _ _ => true
  | _ => false

/-- The bytes whose append is to be acknowledged. -/
def Call.kept? : Call → Option Bytes
  | .append data .stored => some data
  | _ => none

/-- Whether the number of the segment that is stored is below a limit. -/
def Call.Below (limit : ℕ) : Call → Prop
  | .store name _ => ∀ id, id? name = some id → id < limit
  | _ => True

theorem Call.Below.mono {call : Call} {limit limit' : ℕ} (h : call.Below limit) (hle : limit ≤ limit') :
    call.Below limit' := by
  cases call with
  | store name data => exact fun id hid => Nat.lt_of_lt_of_le (h id hid) hle
  | _ => exact trivial

/-- An archive with the appends that were acknowledged, each with the name of the segment that it went to,
and the segments that were stored, with the bytes that they were given last. -/
structure History where
  archive : Archive
  appended : List (String × Bytes)
  stored : Table String Bytes

namespace History

/-- A folder is opened. -/
def start (folder : Folder) (bound : ℕ) : History := ⟨mount folder bound, [], ∅⟩

/-- The history after one more call. -/
def step (g : History) : Call → History
  | .append data fate =>
    match g.archive.appendWith (fun _ _ => fate) data with
    | (.ok (), archive) =>
      { g with
        archive
        appended := g.appended ++ g.archive.destination.toList.map (·, data) }
    | (.error _, archive) => { g with archive }
  | .store name data =>
    match g.archive.store name data with
    | (.ok (), archive) => { g with archive, stored := g.stored.insert name data }
    | (.error _, archive) => { g with archive }
  | .ship name => { g with archive := (g.archive.ship name).2 }
  | .reopen bound => { g with archive := g.archive.reopen bound }

/-- What was appended to a segment. -/
def textOf (g : History) (name : String) : Bytes := (g.appended.filter (·.1 = name)).flatMap (·.2)

variable {g : History}

theorem textOf_eq_nil {k : String} (h : ∀ x ∈ g.appended, x.1 ≠ k) : g.textOf k = [] := by
  rw [textOf, List.filter_eq_nil_iff.mpr (by simpa using h)]
  rfl

/-- The active segment of a history.  If it was stored over, its file has no name. -/
structure Heads (g : History) (active : Active) : Prop where
  valid : (id? active.name).isSome = true
  found : ∃ data, g.archive.folder.readFile active.name = .ok data
  last : ∀ x ∈ g.appended, x.1 ≤ active.name
  file : ∃ n, active.handle = .file n ∧ n < g.archive.folder.contents.size ∧
    (g.stored.get? active.name = none ∧
        g.archive.folder.names.get? active.name = some (.file n) ∧
        g.archive.folder.bytesOf n = g.textOf active.name ∧
        active.size = (g.textOf active.name).length ∨
      g.stored.get? active.name ≠ none ∧ g.archive.folder.Adrift n)

/-- What a history keeps.  A segment that was stored has the bytes that it was given last, and any other one
begins with what was appended to it. -/
structure Kept (g : History) : Prop where
  plain : g.archive.folder.Plain
  below : ∀ {k data}, (id? k).isSome = true → g.archive.folder.readFile k = .ok data →
    k < name g.archive.upcoming
  found : ∀ x ∈ g.appended, (id? x.1).isSome = true ∧
    ∃ data, g.archive.folder.readFile x.1 = .ok data
  ordered : (g.appended.map (·.1)).Pairwise (· ≤ ·)
  stored : ∀ {k data}, g.stored.get? k = some data →
    (id? k).isSome = true ∧ g.archive.folder.readFile k = .ok data
  text : ∀ {k data}, g.stored.get? k = none → g.archive.folder.readFile k = .ok data →
    g.textOf k <+: data
  active : ∀ active, g.archive.active = some active → g.Heads active

/-! ### Appending -/

theorem Kept.rotate (h : g.Kept) (hlimit : g.archive.upcoming + 1 < Wire.wordLimit) :
    ∃ active a', g.archive.rotate = (.ok active, a') ∧ Kept { g with archive := a' } ∧
      a'.active = some active ∧ a'.upcoming = g.archive.upcoming + 1 := by
  have hid : id? (name g.archive.upcoming) = some g.archive.upcoming :=
    id?_name (Nat.lt_of_succ_lt hlimit)
  obtain ⟨n, folder, hopen, hplain, hget, hread⟩ :=
    h.plain.openForWriting (name g.archive.upcoming)
  have hnew {data : Bytes} : g.archive.folder.readFile (name g.archive.upcoming) ≠ .ok data :=
    fun hr => absurd (h.below (by simp [hid]) hr) (lt_irrefl _)
  have hnone : (g.archive.folder.readFile (name g.archive.upcoming)).toOption = none := by
    cases hr : g.archive.folder.readFile (name g.archive.upcoming) with
    | error cause => rfl
    | ok data => exact absurd hr hnew
  rw [hnone, Option.getD_none] at hread
  have hempty : folder.bytesOf n = [] := by
    have hself := hread (name g.archive.upcoming)
    rw [if_pos rfl, Folder.readFile_of_file hget] at hself
    exact Except.ok.inj hself
  have hold {k : String} {data : Bytes} (hr : g.archive.folder.readFile k = .ok data) :
      folder.readFile k = .ok data := by
    rw [hread, if_neg fun hk => hnew (hk ▸ hr)]
    exact hr
  have hlt : name g.archive.upcoming < name (g.archive.upcoming + 1) :=
    name_lt_name (Nat.lt_succ_self _) hlimit
  have hunused : g.textOf (name g.archive.upcoming) = [] := textOf_eq_nil fun x hx heq => by
    obtain ⟨-, data, hr⟩ := h.found x hx
    exact hnew (heq ▸ hr)
  have hnext : nextId g.archive.upcoming = g.archive.upcoming + 1 := Nat.mod_eq_of_lt hlimit
  rw [rotate_eq hopen, hnext, Folder.dataOf, hempty]
  refine ⟨_, _, rfl, ⟨hplain, fun {k data} hk hr => ?_, fun x hx => ?_, h.ordered, fun hs => ?_,
    fun {k data} hs hr => ?_, fun active ha => ?_⟩, rfl, rfl⟩
  · rw [hread] at hr
    split at hr
    · next heq =>
      rw [heq]
      exact hlt
    · exact lt_trans (h.below hk hr) hlt
  · obtain ⟨hk, data, hr⟩ := h.found x hx
    exact ⟨hk, data, hold hr⟩
  · exact (h.stored hs).imp_right hold
  · rw [hread] at hr
    split at hr
    · next heq =>
      show g.textOf k <+: data
      rw [heq, hunused]
      exact List.nil_prefix
    · exact h.text hs hr
  · obtain rfl := Option.some.inj ha
    refine ⟨by simp [hid], ⟨[], (hread _).trans (if_pos rfl)⟩, fun x hx => ?_, n, rfl, ?_,
      .inl ⟨?_, hget, hempty.trans hunused.symm, congrArg List.length hunused.symm⟩⟩
    · obtain ⟨hk, data, hr⟩ := h.found x hx
      exact (h.below hk hr).le
    · obtain ⟨_, he, hn⟩ := hplain.file hget
      rwa [Entry.file.inj he]
    · cases hs : g.stored.get? (name g.archive.upcoming) with
      | none => rfl
      | some data => exact absurd (h.stored hs).2 hnew

/-- An append goes to the active segment or to a new one. -/
theorem Kept.target (h : g.Kept) (hlimit : g.archive.upcoming + 1 < Wire.wordLimit) :
    ∃ active a', g.archive.target = (.ok active, a') ∧ Kept { g with archive := a' } ∧
      a'.active = some active ∧ a'.upcoming ≤ g.archive.upcoming + 1 := by
  have hrotate : ∃ active a', g.archive.rotate = (.ok active, a') ∧ Kept { g with archive := a' } ∧
      a'.active = some active ∧ a'.upcoming ≤ g.archive.upcoming + 1 := by
    obtain ⟨active, a', hrotate, hkept, hactive, hupcoming⟩ := h.rotate hlimit
    exact ⟨active, a', hrotate, hkept, hactive, hupcoming.le⟩
  rw [Archive.target]
  cases hactive : g.archive.active with
  | none => exact hrotate
  | some active =>
      dsimp only
      split
      · exact hrotate
      · exact ⟨active, g.archive, rfl, h, hactive, Nat.le_succ _⟩

/-- Bytes that are written to the active segment come after what was appended to it, unless it was stored
over; then they cannot be read. -/
theorem Heads.setData (h : g.Kept) {active : Active} (ha : g.Heads active) (data : Bytes) :
    (g.archive.folder.setData active.handle data).Plain ∧
      (g.archive.folder.setData active.handle data).contents.size =
        g.archive.folder.contents.size ∧
      (g.archive.folder.setData active.handle data).names = g.archive.folder.names ∧
      ∀ k, (g.archive.folder.setData active.handle data).readFile k =
        if k = active.name ∧ g.stored.get? k = none then .ok data
        else g.archive.folder.readFile k := by
  obtain ⟨n, hhandle, hn, ⟨hnot, hget, -, -⟩ | ⟨hstored, hadrift⟩⟩ := ha.file
  · obtain ⟨hplain, hread⟩ := h.plain.setBytes hget data
    rw [hhandle]
    refine ⟨hplain, by simp [Folder.setData, Folder.setBytes], rfl, fun k => (hread k).trans ?_⟩
    by_cases hk : k = active.name
    · rw [if_pos hk, if_pos ⟨hk, hk ▸ hnot⟩]
    · rw [if_neg hk, if_neg fun hand => hk hand.1]
  · obtain ⟨hplain, hread⟩ := h.plain.setBytes_of_adrift hn hadrift data
    rw [hhandle]
    refine ⟨hplain, by simp [Folder.setData, Folder.setBytes], rfl, fun k => (hread k).trans ?_⟩
    rw [if_neg]
    rintro ⟨rfl, hnone⟩
    exact hstored hnone

theorem Heads.resize_eq {active : Active} (ha : g.Heads active)
    (hnot : g.stored.get? active.name = none) :
    resize active.size (g.archive.folder.dataOf active.handle) = g.textOf active.name := by
  obtain ⟨n, hhandle, -, ⟨-, -, hbytes, hsize⟩ | ⟨hstored, -⟩⟩ := ha.file
  · rw [hhandle, Folder.dataOf, hbytes, hsize, resize]
    simp
  · exact absurd hnot hstored

/-- The history after the active segment got other bytes, and some appends to it were acknowledged. -/
def put (g : History) (active : Active) (bytes : Bytes) (extra : List (String × Bytes))
    (active' : Option Active) : History where
  archive := { g.archive with
    folder := g.archive.folder.setData active.handle bytes
    active := active' }
  appended := g.appended ++ extra
  stored := g.stored

section put
variable {active next : Active} {bytes : Bytes} {extra : List (String × Bytes)} {active' : Option Active}

theorem textOf_put (hextra : ∀ x ∈ extra, x.1 = active.name) (k : String) :
    (g.put active bytes extra active').textOf k =
      g.textOf k ++ if k = active.name then extra.flatMap (·.2) else [] := by
  have hfilter : extra.filter (·.1 = k) = if k = active.name then extra else [] := by
    split
    · next hk => exact List.filter_eq_self.mpr (by simpa [hk] using hextra)
    · next hk =>
      refine List.filter_eq_nil_iff.mpr fun x hx => ?_
      rw [hextra x hx]
      simpa using Ne.symm hk
  show (((g.appended ++ extra).filter (·.1 = k)).flatMap (·.2)) = _
  rw [List.filter_append, List.flatMap_append, hfilter, apply_ite (List.flatMap _), List.flatMap_nil]
  rfl

theorem Heads.exists_readFile_put (h : g.Kept) (ha : g.Heads active) {k : String} {data : Bytes}
    (hr : g.archive.folder.readFile k = .ok data) :
    ∃ data', (g.put active bytes extra active').archive.folder.readFile k = .ok data' := by
  obtain ⟨-, -, -, hread⟩ := ha.setData h bytes
  show ∃ data', (g.archive.folder.setData active.handle bytes).readFile k = .ok data'
  rw [hread]
  split
  · exact ⟨_, rfl⟩
  · exact ⟨_, hr⟩

/-- The segment stays active if its size is known. -/
theorem Heads.put (h : g.Kept) (ha : g.Heads active) (hextra : ∀ x ∈ extra, x.1 = active.name)
    (hname : next.name = active.name) (hhandle : next.handle = active.handle)
    (hwhole : g.stored.get? active.name = none →
      bytes = g.textOf active.name ++ extra.flatMap (·.2) ∧ next.size = bytes.length) :
    (g.put active bytes extra active').Heads next := by
  obtain ⟨-, hsize, hnames, -⟩ := ha.setData h bytes
  obtain ⟨data, hr⟩ := ha.found
  obtain ⟨n, hfile, hn, hcases⟩ := ha.file
  refine ⟨hname ▸ ha.valid, hname ▸ ha.exists_readFile_put h hr, fun x hx => ?_,
    n, hhandle.trans hfile, hsize.symm ▸ hn, ?_⟩
  · rw [hname]
    rcases List.mem_append.mp hx with hx | hx
    · exact ha.last x hx
    · exact (hextra x hx).le
  · rw [hname, textOf_put hextra, if_pos rfl]
    rcases hcases with ⟨hnot, hget, -, -⟩ | ⟨hstored, hadrift⟩
    · obtain ⟨hbytes, hlength⟩ := hwhole hnot
      refine .inl ⟨hnot, (congrArg (·.get? active.name) hnames).trans hget, ?_, hbytes ▸ hlength⟩
      rw [← hbytes]
      show (g.archive.folder.setData active.handle bytes).bytesOf n = bytes
      rw [hfile]
      exact (Folder.bytesOf_setBytes hn bytes n).trans (if_pos rfl)
    · exact .inr ⟨hstored, fun k hk => hadrift k ((congrArg (·.get? k) hnames).symm.trans hk)⟩

theorem Kept.put (h : g.Kept) (ha : g.Heads active) (hextra : ∀ x ∈ extra, x.1 = active.name)
    (hordered : extra.length ≤ 1)
    (hbytes : g.stored.get? active.name = none →
      g.textOf active.name ++ extra.flatMap (·.2) <+: bytes)
    (hactive : ∀ next, active' = some next → next.name = active.name ∧
      next.handle = active.handle ∧ (g.stored.get? active.name = none →
        bytes = g.textOf active.name ++ extra.flatMap (·.2) ∧ next.size = bytes.length)) :
    (g.put active bytes extra active').Kept := by
  obtain ⟨hplain, -, -, hread⟩ := ha.setData h bytes
  refine ⟨hplain, fun {k data} hk hr => ?_, fun x hx => ?_, ?_, fun {k data} hs => ?_,
    fun {k data} hs hr => ?_, fun next hnext => ?_⟩
  · replace hr := (hread k).symm.trans hr
    split at hr
    · next hand =>
      obtain ⟨data', hr⟩ := ha.found
      exact h.below hk (hand.1 ▸ hr)
    · exact h.below hk hr
  · rcases List.mem_append.mp hx with hx | hx
    · obtain ⟨hk, data, hr⟩ := h.found x hx
      exact ⟨hk, ha.exists_readFile_put h hr⟩
    · obtain ⟨data, hr⟩ := ha.found
      rw [hextra x hx]
      exact ⟨ha.valid, ha.exists_readFile_put h hr⟩
  · show ((g.appended ++ extra).map (·.1)).Pairwise (· ≤ ·)
    rw [List.map_append, List.pairwise_append]
    refine ⟨h.ordered, ?_, fun m hm n hn => ?_⟩
    · cases extra with
      | nil => exact .nil
      | cons x rest =>
          obtain rfl : rest = [] := List.length_eq_zero_iff.mp (by simpa using hordered)
          exact List.pairwise_singleton ..
    · obtain ⟨x, hx, rfl⟩ := List.mem_map.mp hm
      obtain ⟨y, hy, rfl⟩ := List.mem_map.mp hn
      rw [hextra y hy]
      exact ha.last x hx
  · obtain ⟨hk, hr⟩ := h.stored hs
    refine ⟨hk, (hread k).trans ?_⟩
    rw [if_neg fun hand => Option.some_ne_none _ (hs.symm.trans hand.2)]
    exact hr
  · rw [textOf_put hextra]
    replace hr := (hread k).symm.trans hr
    split at hr
    · next hand =>
      obtain rfl := hand.1
      obtain rfl := Except.ok.inj hr
      rw [if_pos rfl]
      exact hbytes hs
    · next hand =>
      rw [if_neg fun hk => hand ⟨hk, hs⟩, List.append_nil]
      exact h.text hs hr
  · obtain ⟨hname, hhandle, hwhole⟩ := hactive next hnext
    exact ha.put h hextra hname hhandle hwhole

end put

theorem Kept.append (h : g.Kept) (hlimit : g.archive.upcoming + 1 < Wire.wordLimit) (data : Bytes)
    (fate : WriteFate) : Kept (g.step (.append data fate)) ∧
      (g.step (.append data fate)).archive.upcoming ≤ g.archive.upcoming + 1 ∧
      (g.step (.append data fate)).appended.map (·.2) =
        g.appended.map (·.2) ++ (Call.append data fate).kept?.toList := by
  obtain ⟨active, a', htarget, hkept, hactive, hupcoming⟩ := h.target hlimit
  have ha : Heads { g with archive := a' } active := hkept.active active hactive
  have hname : g.archive.destination = some active.name := by
    rw [destination, htarget]
    rfl
  have hwrite : g.archive.appendWith (fun _ _ => fate) data = a'.writeTo active data fate := by
    rw [appendWith, htarget]
  rw [step, hwrite, hname]
  cases fate with
  | stored =>
      refine ⟨hkept.put ha (by simp) (Nat.le_refl _) (fun hnot => ?_) fun next hnext => ?_, hupcoming,
        by simp [Call.kept?, writeTo]⟩
      · rw [ha.resize_eq hnot]
        simp
      · obtain rfl := Option.some.inj hnext
        refine ⟨rfl, rfl, fun hnot => ?_⟩
        rw [ha.resize_eq hnot]
        obtain ⟨n, -, -, ⟨-, -, -, hsize⟩ | ⟨hstored, -⟩⟩ := ha.file
        · simp [hsize]
        · exact absurd hnot hstored
  | failed cause written cutBack =>
      let left := if cutBack then resize active.size (a'.folder.dataOf active.handle)
        else resize active.size (a'.folder.dataOf active.handle) ++ data.take written
      have hleft (hnot : g.stored.get? active.name = none) :
          textOf { g with archive := a' } active.name ++ ([] : List (String × Bytes)).flatMap (·.2) <+:
            left := by
        dsimp only [left]
        rw [ha.resize_eq hnot]
        split <;> simp
      have hput : (History.put { g with archive := a' } active left [] none).Kept :=
        hkept.put ha (by simp) (Nat.zero_le _) hleft (by simp)
      rw [History.put, List.append_nil] at hput
      exact ⟨hput, hupcoming, (List.append_nil _).symm⟩

/-! ### Storing, shipping and opening anew -/

/-- The active segment stays so when a segment is stored.  If it is the one that is stored, its file has no
name any more. -/
theorem Heads.store {active : Active} {folder : Folder} {name : String} {data : Bytes} {upcoming : ℕ}
    (h : g.Kept) (ha : g.Heads active) (hs : Stored g.archive.folder name data folder) :
    Heads { g with
      archive := { g.archive with folder, upcoming }
      stored := g.stored.insert name data } active := by
  obtain ⟨data', hr⟩ := ha.found
  obtain ⟨n, hhandle, hn, hcases⟩ := ha.file
  refine ⟨ha.valid, hs.exists_readFile ha.valid hr, ha.last, n, hhandle,
    Nat.lt_of_lt_of_le hn hs.size, ?_⟩
  by_cases hne : active.name = name
  · refine .inr ⟨by simp [hne], hs.adrift n hn fun k hk hget => ?_⟩
    rcases hcases with ⟨-, hself, -⟩ | ⟨-, hadrift⟩
    · exact hk ((h.plain.apart hget hself).trans hne)
    · exact hadrift k hget
  · obtain ⟨hread, hnames⟩ := hs.of_ne ha.valid hne
    have hstored : (g.stored.insert name data).get? active.name = g.stored.get? active.name :=
      Table.get?_insert_of_ne _ hne data
    rcases hcases with ⟨hnot, hget, hbytes, hlength⟩ | ⟨hsome, hadrift⟩
    · refine .inl ⟨hstored.trans hnot, hnames.trans hget, ?_, hlength⟩
      rw [Folder.readFile_of_file (hnames.trans hget), Folder.readFile_of_file hget] at hread
      exact (Except.ok.inj hread).trans hbytes
    · exact .inr ⟨fun hnone => hsome (hstored.symm.trans hnone), hs.adrift n hn fun k _ => hadrift k⟩

/-- A segment that is stored has the bytes that it is given. -/
theorem Kept.store (h : g.Kept) {name : String} {id : ℕ} (hid : id? name = some id)
    (hlimit : max g.archive.upcoming (id + 1) < Wire.wordLimit) (data : Bytes) :
    Kept (g.step (.store name data)) ∧
      (g.step (.store name data)).archive.upcoming = max g.archive.upcoming (id + 1) ∧
      (g.step (.store name data)).appended = g.appended := by
  obtain ⟨folder, hstore, hs⟩ := exists_stored h.plain hid data
  have hnext : nextId id = id + 1 := Nat.mod_eq_of_lt (lt_of_le_of_lt (le_max_right ..) hlimit)
  rw [step, hstore, hnext]
  refine ⟨⟨hs.plain, fun {k data'} hk hr => ?_, fun x hx => ?_, h.ordered, fun {k data'} hk => ?_,
    fun {k data'} hk hr => ?_, fun active ha => (h.active active ha).store h hs⟩, rfl, rfl⟩
  · by_cases hne : k = name
    · rw [hne, eq_name_of_id? hid]
      exact lt_of_lt_of_le (name_lt_name (Nat.lt_succ_self id)
        (lt_of_le_of_lt (le_max_right ..) hlimit)) (name_le_name (le_max_right ..) hlimit)
    · exact lt_of_lt_of_le (h.below hk ((hs.of_ne hk hne).1.symm.trans hr))
        (name_le_name (le_max_left ..) hlimit)
  · obtain ⟨hk, data', hr⟩ := h.found x hx
    exact ⟨hk, hs.exists_readFile hk hr⟩
  · rw [Table.get?_insert] at hk
    split at hk
    · next heq =>
      obtain rfl := Option.some.inj hk
      exact ⟨by simp [heq, hid], (hs.read k).trans (if_pos heq)⟩
    · next hne =>
      obtain ⟨hk, hr⟩ := h.stored hk
      exact ⟨hk, (hs.of_ne hk hne).1.trans hr⟩
  · rw [Table.get?_insert] at hk
    split at hk
    · cases hk
    · next hne =>
      replace hr := (hs.read k).symm.trans hr
      rw [if_neg hne] at hr
      split at hr
      · cases hr
      · exact h.text hk hr

theorem Kept.of_folder_eq (h : g.Kept) {a' : Archive} (hfolder : a'.folder = g.archive.folder)
    (hbelow : ∀ {k data}, (id? k).isSome = true → a'.folder.readFile k = .ok data →
      k < name a'.upcoming)
    (hactive : ∀ active, a'.active = some active → g.archive.active = some active) :
    Kept { g with archive := a' } where
  plain := hfolder ▸ h.plain
  below := hbelow
  found x hx := hfolder ▸ h.found x hx
  ordered := h.ordered
  stored hs := hfolder ▸ h.stored hs
  text hs hr := h.text hs (hfolder ▸ hr)
  active active ha := by
    obtain ⟨hvalid, hfound, hlast, hfile⟩ := h.active active (hactive active ha)
    exact ⟨hvalid, hfolder ▸ hfound, hlast, hfolder ▸ hfile⟩

theorem Kept.ship (h : g.Kept) (name : String) : Kept (g.step (.ship name)) ∧
    (g.step (.ship name)).archive.upcoming = g.archive.upcoming := by
  rw [step, Archive.ship]
  split
  · exact ⟨h, rfl⟩
  · dsimp only
    split
    · exact ⟨h.of_folder_eq rfl h.below fun _ ha => (by cases ha), rfl⟩
    · exact ⟨h, rfl⟩

theorem below_mount {folder : Folder} (hplain : folder.Plain) (bound : ℕ) {limit : ℕ}
    (hpos : 1 ≤ limit) (hlimit : limit < Wire.wordLimit)
    (hids : ∀ k ∈ folder.names.keys, ∀ id, id? k = some id → id < limit) :
    (∀ {k data}, (id? k).isSome = true → folder.readFile k = .ok data →
      k < name (mount folder bound).upcoming) ∧ (mount folder bound).upcoming ≤ limit := by
  obtain ⟨segs, hrolling, hupcoming⟩ := rolling_mount hplain bound hpos hlimit hids
  refine ⟨fun {k data} hk hr => hrolling.below (k, data) ?_, hupcoming⟩
  have hfolder : (mount folder bound).folder = folder := hplain.ensure_eq
  exact (hrolling.holds.mem_iff _).mpr ⟨hk, hfolder ▸ hr⟩

theorem Kept.reopen (h : g.Kept) (bound : ℕ) {limit : ℕ} (hpos : 1 ≤ limit)
    (hlimit : limit < Wire.wordLimit) (hupcoming : g.archive.upcoming ≤ limit) :
    Kept (g.step (.reopen bound)) ∧ (g.step (.reopen bound)).archive.upcoming ≤ limit := by
  have hfolder : (mount g.archive.folder bound).folder = g.archive.folder := h.plain.ensure_eq
  obtain ⟨hbelow, hle⟩ := below_mount h.plain bound hpos hlimit fun k hk id hid => by
    obtain ⟨e, hget⟩ := (Table.mem_keys_iff _ _).mp hk
    obtain ⟨n, rfl, -⟩ := h.plain.file hget
    have hlt : k < name g.archive.upcoming :=
      h.below (by simp [hid]) (Folder.readFile_of_file hget)
    rw [eq_name_of_id? hid] at hlt
    by_contra hge
    have hle : g.archive.upcoming ≤ id := by omega
    exact absurd (lt_of_lt_of_le hlt (name_le_name hle (id?_eq_some_iff.mp hid).choose_spec.2.2.2.2))
      (lt_irrefl _)
  exact ⟨h.of_folder_eq hfolder (fun hk hr => hbelow hk (hfolder ▸ hr)) fun _ ha => (by cases ha), hle⟩

/-! ### Runs -/

theorem kept_start {folder : Folder} (hplain : folder.Plain) (bound : ℕ) {limit : ℕ}
    (hpos : 1 ≤ limit) (hlimit : limit < Wire.wordLimit)
    (hids : ∀ k ∈ folder.names.keys, ∀ id, id? k = some id → id < limit) :
    Kept (start folder bound) ∧ (start folder bound).archive.upcoming ≤ limit := by
  have hfolder : (mount folder bound).folder = folder := hplain.ensure_eq
  obtain ⟨hbelow, hle⟩ := below_mount hplain bound hpos hlimit hids
  refine ⟨⟨?_, fun hk hr => hbelow hk (hfolder ▸ hr), by simp [start], .nil,
    fun hs => (by cases hs), fun _ _ => List.nil_prefix, fun _ ha => (by cases ha)⟩, hle⟩
  show (mount folder bound).folder.Plain
  rwa [hfolder]

/-- Every call keeps what a history has. -/
theorem Kept.step (h : g.Kept) {limit : ℕ} (hpos : 1 ≤ limit) {call : Call} (hcall : call.Below limit)
    (hupcoming : g.archive.upcoming ≤ limit)
    (hlimit : limit + [call].countP (·.isAppend) < Wire.wordLimit) :
    Kept (g.step call) ∧
      (g.step call).archive.upcoming ≤ limit + [call].countP (·.isAppend) ∧
      (g.step call).appended.map (·.2) = g.appended.map (·.2) ++ call.kept?.toList := by
  cases call with
  | append data fate =>
      have hlimit : limit + 1 < Wire.wordLimit := hlimit
      obtain ⟨hkept, hle, happended⟩ := h.append (by omega) data fate
      exact ⟨hkept, Nat.le_trans hle (Nat.succ_le_succ hupcoming), happended⟩
  | store name data =>
      have hlimit : limit < Wire.wordLimit := hlimit
      cases hid : id? name with
      | none =>
          obtain ⟨fault, hstore⟩ := store_of_id?_eq_none (a := g.archive) hid data
          rw [History.step, hstore]
          exact ⟨h, hupcoming, (List.append_nil _).symm⟩
      | some id =>
          have hlt : id < limit := hcall id hid
          obtain ⟨hkept, heq, happended⟩ := h.store hid (by omega) data
          exact ⟨hkept, heq ▸ max_le hupcoming hlt, happended ▸ (List.append_nil _).symm⟩
  | ship name =>
      obtain ⟨hkept, heq⟩ := h.ship name
      exact ⟨hkept, heq ▸ hupcoming, (List.append_nil _).symm⟩
  | reopen bound =>
      obtain ⟨hkept, hle⟩ := h.reopen bound hpos hlimit hupcoming
      exact ⟨hkept, hle, (List.append_nil _).symm⟩

theorem Kept.run (h : g.Kept) {limit : ℕ} (hpos : 1 ≤ limit) {calls : List Call}
    (hcalls : ∀ call ∈ calls, call.Below limit) (hupcoming : g.archive.upcoming ≤ limit)
    (hlimit : limit + calls.countP (·.isAppend) < Wire.wordLimit) :
    Kept (calls.foldl History.step g) ∧ (calls.foldl History.step g).appended.map (·.2) =
      g.appended.map (·.2) ++ calls.filterMap Call.kept? := by
  induction calls generalizing g limit with
  | nil => exact ⟨h, (List.append_nil _).symm⟩
  | cons call calls ih =>
      obtain ⟨hcall, hcalls⟩ := List.forall_mem_cons.mp hcalls
      have hcount : (call :: calls).countP (·.isAppend) =
          [call].countP (·.isAppend) + calls.countP (·.isAppend) := by
        rw [← List.countP_append]
        rfl
      rw [hcount] at hlimit
      obtain ⟨hkept, hle, happended⟩ := h.step hpos hcall hupcoming (by omega)
      obtain ⟨hkept', happended'⟩ := ih hkept (Nat.le_add_right_of_le hpos)
        (fun call hc => (hcalls call hc).mono (Nat.le_add_right ..)) hle (by omega)
      refine ⟨hkept', happended'.trans ?_⟩
      rw [happended, List.append_assoc]
      cases hk : call.kept? <;> simp [hk]

end History

/-- Whatever is done with a folder of regular files, its segments are listed in the order of their names, and
the appends that were acknowledged went to segments in this order.  A segment under whose name none was stored
begins with what was appended to it; one that was stored has the bytes that it was given last.

The numbers of segments have eight bytes, and an append takes one number at most. -/
theorem segments_of_calls {folder : Folder} (hplain : folder.Plain) (bound : ℕ) {limit : ℕ}
    (hpos : 1 ≤ limit) (hids : ∀ k ∈ folder.names.keys, ∀ id, id? k = some id → id < limit)
    {calls : List Call} (hcalls : ∀ call ∈ calls, call.Below limit)
    (hlimit : limit + calls.countP (·.isAppend) < Wire.wordLimit) :
    let g := calls.foldl History.step (.start folder bound)
    g.appended.map (·.2) = calls.filterMap Call.kept? ∧
      ∃ segs, g.archive.segments = .ok segs ∧ (segs.map (·.1)).Pairwise (· < ·) ∧
        (g.appended.map (·.1)).Pairwise (· ≤ ·) ∧
        (∀ x ∈ g.appended, g.stored.get? x.1 = none →
          ∃ data, (x.1, data) ∈ segs ∧ g.textOf x.1 <+: data) ∧
        ∀ name data, g.stored.get? name = some data → (name, data) ∈ segs := by
  obtain ⟨hstart, hupcoming⟩ := History.kept_start hplain bound hpos (by omega) hids
  obtain ⟨hkept, happended⟩ := hstart.run hpos hcalls hupcoming hlimit
  obtain ⟨segs, hholds⟩ := exists_holds hkept.plain
  refine ⟨happended, segs, hholds.segments_eq, hholds.sorted, hkept.ordered, fun x hx hnot => ?_,
    fun name data hs => (hholds.mem_iff _).mpr (hkept.stored hs)⟩
  obtain ⟨hid, data, hr⟩ := hkept.found x hx
  exact ⟨data, (hholds.mem_iff _).mpr ⟨hid, hr⟩, hkept.text hnot hr⟩

/-- A segment is stored over the active one, between two appends.  A third one comes after the segment was
shipped. -/
def sampleCalls : List Call :=
  [.append [97] .stored, .store (name 1) [98], .append [99] .stored, .ship (name 1),
    .append [100] .stored]

/-- The third append has a segment of its own. -/
theorem segments_of_calls_sample : ∃ segs,
    (sampleCalls.foldl History.step (.start .empty 4)).archive.segments = .ok segs ∧
      (∃ data, (name 2, data) ∈ segs ∧ [100] <+: data) ∧ (name 1, [98]) ∈ segs := by
  have hcalls : ∀ call ∈ sampleCalls, call.Below 2 := by
    have hid : id? (name 1) = some 1 := by decide +kernel
    simp [sampleCalls, Call.Below, hid]
  obtain ⟨-, segs, hsegs, -, -, hfound, hstored⟩ :=
    segments_of_calls Folder.plain_empty 4 (by decide) (fun k hk => (by cases hk)) hcalls
      (show 2 + 3 < Wire.wordLimit by decide)
  obtain ⟨data, hdata, htext⟩ := hfound (name 2, [100]) (by decide +kernel) (by decide +kernel)
  refine ⟨segs, hsegs, ⟨data, hdata, ?_⟩, hstored _ _ (by decide +kernel)⟩
  rwa [show (sampleCalls.foldl History.step (.start .empty 4)).textOf (name 2) = [100]
    by decide +kernel] at htext

/-- The second append is acknowledged after the segment was stored, and cannot be read. -/
theorem append_strays :
    ((sampleCalls.take 3).foldl History.step (.start .empty 4)).appended =
        [(name 1, [97]), (name 1, [99])] ∧
      ((sampleCalls.take 3).foldl History.step (.start .empty 4)).archive.segments =
        .ok [(name 1, [98])] := ⟨by decide +kernel, by decide +kernel⟩

end Archive
end Segment
end SnapshotStore

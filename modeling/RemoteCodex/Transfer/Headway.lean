import RemoteCodex.Transfer.CommandLaws

/-!
# An upload with nothing in its way

The reasons the commands give for failing are all there are: a `prepare` that
finds nothing of its stage begins one, and a `commit` of complete data
publishes it.
-/

namespace RemoteCodex.Transfer

open Files Interact

section

variable {c : Crates} {e : Endpoint} {payload : Bytes} {p : Site} {s : Disk} {path token : String}

/-- An undisturbed command ends, as its law says. -/
theorem ends_cases {x : M α} (h : Act.Sat machine G x s Q E) :
    (∃ r t, Prog.Ends machine x.run s (.ok r) t ∧ Q r t) ∨
    ∃ f t, Prog.Ends machine x.run s (.error f) t ∧ E f t := by
  have hends := Prog.ends_run machine_rely x.run s
  generalize x.run.run machine s = result at hends
  obtain ⟨f | r, t⟩ := result
  · exact .inr ⟨f, t, hends, h.fails hends⟩
  · exact .inl ⟨r, t, hends, h.ends hends⟩

/-- A stage as a `prepare` of `j` has begun it in `t`. -/
structure Begun (c : Crates) (p : Site) (j : Journal) (s t : Disk) : Prop where
  entered : Entered p t
  data : t.file? (p.inner "data") = some []
  next : t.get (p.inner "next.json") = none
  state : t.file? (p.inner "state.json") = some (c.toJson j)
  same : Same [p.dir, p.inner "lock", p.inner "data", p.inner "next.json", p.inner "state.json"] s t

/-- Where nothing is of the stage, opening it begins a new journal. -/
theorem Opened.begun (ho : Opened c e path p (some j) s stage u) (hf : Fresh p s) :
    stage.journal = j ∧ Begun c p j s u := by
  obtain ⟨⟨b, hb, -⟩, -⟩ | ⟨hj, -, hdata, hnext, hstate, hs⟩ := ho.found
  · cases (Disk.file?_none (hf.inner "state.json")).symm.trans hb
  · obtain rfl := Option.some.inj hj
    exact ⟨rfl, ho.entered, hdata, hnext, hstate, hs⟩

theorem Begun.stampAt_dest (h : Begun c p j s u) (hne : p.dest ≠ p.dir) : stampAt u p.dest = stampAt s p.dest := by
  rw [stampAt, h.same.get _ (by simpa using hne), ← stampAt]

theorem prepare_begins {src : Stamp} {expected : Option Stamp} (hrun : e.cancelled = false)
    (hp : (Command.prepare path token src expected).site c = some p) (hf : Fresh p s)
    (hne : p.dest ≠ p.dir) (hk : src.kind = .file) (hst : stampAt s p.dest = expected) :
    ∃ t, Prog.Ends machine (dispatch c e (.prepare path token src expected) []).run s
        (.ok (.ready 0 false, [])) t ∧
      Begun c p ⟨e.owner, path, src, expected, 0, none, false⟩ s t := by
  obtain ⟨r, t, hends, hpay, q, stage, u, hq, -, -, ho, -, -, hprep⟩ | ⟨f, t, -, herr⟩ :=
    ends_cases (x := dispatch c e (.prepare path token src expected) []) (dispatch_sat (s := s) rfl prepare_sat)
  · obtain rfl := Option.some.inj (hq.symm.trans hp)
    obtain ⟨hj, hb⟩ := ho.begun hf
    rw [hj] at hprep
    obtain ⟨reply, bytes⟩ := r
    obtain rfl : bytes = [] := hpay
    cases hprep with
    | settled hr => cases hr.1
    | complete _ hc => cases hc
    | resumed _ _ _ hd _ hs ht =>
      obtain rfl := Option.some.inj (hb.data.symm.trans hd)
      refine ⟨t, hends, hb.entered.same hs (by simp) (.inl (by simp)), ht, ?_, ?_, hb.same.trans (hs.mono (by simp))⟩
      · rw [hs.get _ (by simp), hb.next]
      · rw [hs.file? (by simp), hb.state]
  · obtain h | h | h | h | ⟨q, stage, u, hq, ho, h⟩ := herr
    · cases hrun.symm.trans h
    · cases h
    · exact absurd hk h
    · exact absurd hf (h p hp).2
    obtain rfl := Option.some.inj (hq.symm.trans hp)
    obtain ⟨hj, hb⟩ := ho.begun hf
    rw [hj] at h
    obtain h | h | ⟨-, -, h | h⟩ | ⟨h, -⟩ := h
    · exact absurd rfl h
    · exact absurd rfl h
    · exact absurd ((hb.stampAt_dest hne).trans hst) h
    · exact absurd (h [] hb.data) (by simp)
    · cases h.1

theorem commit_publishes {digest : String} {j : Journal} (hrun : e.cancelled = false)
    (hp : (Command.commit path token digest).site c = some p) (hopen : Openable c e path p s)
    (hj : Reads c s p.dir j) (hfull : j.offset = j.source.length) (hst : stampAt s p.dest = j.expected)
    (hd : s.file? (p.inner "data") = some d) (hdig : c.digest d = digest)
    (hnext : s.free (p.inner "next.json") = true) (hparent : s.isDirectory p.parent = true)
    (hdest : s.isDirectory p.dest = false) :
    ∃ t, Prog.Ends machine (dispatch c e (.commit path token digest) []).run s (.ok (.done, [])) t ∧
      t.get (p.inner "data") = none ∧ t.file? p.dest = some d := by
  -- Opening the stage takes its lock, and that is all it changes.
  have hfound {q stage u} (hq : (Command.commit path token digest).site c = some q)
      (ho : Opened c e path q none s stage u) : q = p ∧ stage.journal = j ∧ Same [p.inner "lock"] s u := by
    obtain rfl := Option.some.inj (hq.symm.trans hp)
    obtain ⟨hr, -, hs⟩ | ⟨h, -⟩ := ho.found
    · exact ⟨rfl, hr.unique hj, (hs rfl).2⟩
    · cases h
  have hnot {u} (hs : Same [p.inner "lock"] s u) : ¬ Renamed p j u := fun h => by
    cases ((hs.file? (by simp)).symm.trans (Disk.file?_none h.2)).symm.trans hd
  obtain ⟨r, t, hends, hpay, q, stage, u, hq, -, ho, hdone, hcom⟩ | ⟨f, t, -, herr⟩ :=
    ends_cases (x := dispatch c e (.commit path token digest) []) (dispatch_sat (s := s) rfl commit_sat)
  · obtain ⟨rfl, rfl, hs⟩ := hfound hq ho
    obtain ⟨hr, -⟩ | ⟨-, hpub⟩ := hcom
    · exact absurd hr (hnot hs)
    obtain ⟨d', hd', hnew, -⟩ := hpub.data
    rw [hs.file? (by simp), hd] at hd'
    obtain rfl := Option.some.inj hd'
    obtain ⟨reply, bytes⟩ := r
    obtain rfl : bytes = [] := hpay
    obtain rfl : reply = .done := hdone
    exact ⟨t, hends, hpub.gone, hnew⟩
  · obtain h | h | h | ⟨q, stage, u, hq, ho, h⟩ := herr
    · cases hrun.symm.trans h
    · cases h
    · exact absurd hopen (h p hp)
    obtain ⟨rfl, rfl, hs⟩ := hfound hq ho
    obtain ⟨-, h⟩ | ⟨h, -⟩ := h
    swap
    · exact absurd h (hnot hs)
    have hstamp : stampAt u q.dest = stampAt s q.dest := by rw [stampAt, hs.get _ (by simp), ← stampAt]
    obtain h | h | h | h | h | h := h
    · exact absurd hfull h
    · exact absurd (hstamp.trans hst) h
    · exact absurd hdig (h d (by rw [hs.file? (by simp), hd]))
    · rw [hs.free (by simp), hnext] at h
      cases h
    · rw [hs.isDirectory (by simp [Site.not_above]), hparent] at h
      cases h
    · rw [hs.isDirectory (by simp), hdest] at h
      cases h

end

end RemoteCodex.Transfer

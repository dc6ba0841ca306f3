import StoryFlow.Options

/-! # Restricting a project

Options restrict a project to some of its parts and, inside a part, to some of its items. Source
languages stay whatever locales are selected.
-/

namespace StoryFlow

/-- The items with selected ids. -/
def Selection.select {α : Type} (s : Selection) (id : α → String) (items : List α) : List α :=
  items.filter fun a => s.keeps (id a)

def Localization.restrict (languages : Selection) (l : Localization) : Localization where
  languages := l.languages.filter fun g => g.isSource || languages.keeps g.locale
  strings := languages.select LocalizedText.locale l.strings
  glossary := languages.select GlossaryEntry.targetLocale l.glossary

/-- The part of a project that an export includes. -/
def Project.restrict (p : Project) (o : Options) : Project where
  info := p.info
  sheets := if o.includes .sheets then o.sheetIds.select Sheet.id p.sheets else []
  flows := if o.includes .flows then o.flowIds.select Flow.id p.flows else []
  scenes := if o.includes .scenes then o.sceneIds.select Entity.id p.scenes else []
  screenplays := if o.includes .screenplays then p.screenplays else []
  localization :=
    if o.includes .localization then p.localization.restrict o.languages else Localization.empty
  assets := if o.includes .assets then p.assets else []

end StoryFlow

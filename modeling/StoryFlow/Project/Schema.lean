import StoryFlow.Json.Checked
import StoryFlow.Project.Basic
import StoryFlow.Text.Identifier

/-! # Reading a project

The shape of a stored project, part by part. Every fault of a document is reported, in the order
in which the fields are listed here.
-/

namespace StoryFlow

open Reader

/-- The name of a block's variable: the stored one, else the slug of the block's label. -/
def Block.nameOf (stored : Option String) (config : Fields) : Option String :=
  given stored <|>
    match config.get? "label" with
    | some (.str label) => given (some (Text.slugify label))
    | _ => none

def Block.read : Reader Block :=
  object fun fs =>
    (fun id type position config value isConstant name table =>
      { id, type, position, config, value, isConstant, table,
        variableName := Block.nameOf name config : Block }) <$>
      field fs "id" ident <*> field fs "type" string <*> field fs "position" (maybe number) <*>
      field fs "config" freeForm <*> field fs "value" freeForm <*> field fs "is_constant" flag <*>
      field fs "variable_name" text <*> field fs "table_data" (maybe fields)

def Sheet.read : Reader Sheet :=
  object fun fs =>
    Sheet.mk <$> field fs "id" ident <*> field fs "shortcut" string <*> field fs "name" string <*>
      field fs "description" text <*> field fs "color" text <*> field fs "parent_id" reference <*>
      field fs "blocks" (list Block.read)

def Node.read : Reader Node :=
  object fun fs =>
    Node.ofStored <$> field fs "id" ident <*> field fs "type" string <*> field fs "data" freeForm <*>
      field fs "position_x" (nullable number) <*> field fs "position_y" (nullable number)

/-- A connection without a source pin leaves from the pin `output`. -/
def Connection.read : Reader Connection :=
  object fun fs =>
    (fun id source pin target targetPin label =>
      ⟨id, source, (given pin).getD "output", target, targetPin, label⟩) <$>
      field fs "id" reference <*> field fs "source_node_id" ident <*> field fs "source_pin" text <*>
      field fs "target_node_id" ident <*> field fs "target_pin" text <*> field fs "label" text

def Flow.read : Reader Flow :=
  object fun fs =>
    Flow.mk <$> field fs "id" ident <*> field fs "shortcut" text <*>
      field fs "name" (withDefault "" string) <*> field fs "description" text <*>
      field fs "parent_id" reference <*> field fs "is_main" flag <*> field fs "settings" freeForm <*>
      field fs "nodes" (list Node.read) <*> field fs "connections" (list Connection.read)

def Entity.read : Reader Entity :=
  object fun fs =>
    (fun id name shortcut =>
      ⟨id, name, shortcut,
        (Fields.kept fs).filter fun f => f.1 ∉ ["id", "name", "shortcut"]⟩) <$>
      field fs "id" ident <*> field fs "name" text <*> field fs "shortcut" text

def Language.read : Reader Language :=
  object fun fs =>
    Language.mk <$> field fs "locale_code" string <*> field fs "name" text <*>
      field fs "is_source" flag

def LocalizedText.read : Reader LocalizedText :=
  object fun fs =>
    LocalizedText.mk <$> field fs "source_type" string <*> field fs "source_id" ident <*>
      field fs "source_field" string <*> field fs "source_text" text <*>
      field fs "source_text_hash" text <*> field fs "speaker_sheet_id" reference <*>
      field fs "locale_code" string <*> field fs "translated_text" text <*>
      field fs "status" (withDefault "pending" string) <*> field fs "vo_status" text <*>
      field fs "translator_notes" text <*> field fs "reviewer_notes" text <*>
      field fs "word_count" (nullable number) <*> field fs "machine_translated" flag

def GlossaryEntry.read : Reader GlossaryEntry :=
  object fun fs =>
    GlossaryEntry.mk <$> field fs "source_term" string <*> field fs "source_locale" string <*>
      field fs "target_term" text <*> field fs "target_locale" string <*>
      field fs "do_not_translate" flag <*> field fs "context" text

def Localization.read : Reader Localization :=
  object fun fs =>
    Localization.mk <$> field fs "languages" (list Language.read) <*>
      field fs "strings" (list LocalizedText.read) <*>
      field fs "glossary" (list GlossaryEntry.read)

def Asset.read : Reader Asset :=
  object fun fs =>
    Asset.mk <$> field fs "id" ident <*> field fs "filename" string <*>
      field fs "content_type" text <*> field fs "size" (nullable number) <*>
      field fs "key" text <*> field fs "url" text <*> field fs "metadata" freeForm

def ProjectInfo.read : Reader ProjectInfo :=
  object fun fs =>
    ProjectInfo.mk <$> field fs "id" ident <*> field fs "name" string <*> field fs "slug" text <*>
      field fs "description" text <*> field fs "settings" freeForm

def Project.read : Reader Project :=
  object fun fs =>
    Project.mk <$> field fs "project" ProjectInfo.read <*> field fs "sheets" (list Sheet.read) <*>
      field fs "flows" (list Flow.read) <*> field fs "scenes" (list Entity.read) <*>
      field fs "screenplays" (list Entity.read) <*>
      field fs "localization" (withDefault Localization.empty Localization.read) <*>
      field fs "assets" (list Asset.read)

end StoryFlow

import LayeredConfig.Proofs.Edit

namespace LayeredConfig.Edit

variable {t u : FileTree} {file : Location} {path other : List String} {value v : Value} {fields : Fields}

section Write

variable (known : fieldsOf t file = .ok fields)
  (wrote : t.write file (.text (Yaml.print (.object (setAt fields path value)))) = .ok u)
  (faithful : ReadsBack (.object (setAt fields path value)))

include known wrote faithful

end Write

section Text

end Text

end LayeredConfig.Edit

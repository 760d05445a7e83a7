import Revix.ToolTranscripts

namespace Revix
open EffectPrograms EffectSessions LabelledRuns

section Agents

variable (lib : Libraries) (models : Settings)

variable {lib models}

end Agents

namespace Sample

end Sample

end Revix
